import Zeppelin.Machine.Batching
import Mathlib.Data.Finset.Basic
import Mathlib.Data.Finset.SDiff
import Mathlib.Data.Finset.Dedup
import Mathlib.Data.Finset.Lattice.Lemmas
import Mathlib.Tactic.Tauto

/-! A set that is changed through two lanes. Additions and removals wait in a
lane of their own until the lane is full and are then applied together, so that
changes of one item may be applied out of order. The results say for each item
when that matters: what was last done to it must not be applied while an earlier
change of the other kind is still waiting. -/
namespace Zeppelin.Lanes

open Batching

variable {α : Type}

inductive Change (α : Type) where
  | add (items : List α)
  | remove (items : List α)

namespace Change

def items : Change α → List α
  | add items => items
  | remove items => items

def added : Change α → List α
  | add items => items
  | remove _ => []

def removed : Change α → List α
  | add _ => []
  | remove items => items

def apply [DecidableEq α] (set : Finset α) : Change α → Finset α
  | add items => set ∪ items.toFinset
  | remove items => set \ items.toFinset

end Change

theorem width_dvd_flatMap {width : Nat} {changes : List (Change α)} {part : Change α → List α}
    (each : ∀ c ∈ changes, width ∣ (part c).length) : width ∣ (changes.flatMap part).length := by
  induction changes with
  | nil => exact dvd_zero width
  | cons c rest ih =>
    rw [List.flatMap_cons, List.length_append]
    exact Nat.dvd_add (each c List.mem_cons_self) (ih fun d hd => each d (List.mem_cons_of_mem c hd))

theorem width_dvd_part {width : Nat} {c : Change α} (size : c.items.length = width) :
    width ∣ c.added.length ∧ width ∣ c.removed.length := by
  cases c with
  | add items => exact ⟨dvd_of_eq size.symm, dvd_zero width⟩
  | remove items => exact ⟨dvd_zero width, dvd_of_eq size.symm⟩

variable [DecidableEq α]

/-- All changes one at a time. -/
def inOrder (changes : List (Change α)) : Finset α := changes.foldl Change.apply ∅

structure State (α : Type) where
  settled : Finset α
  adding : List α
  removing : List α

def State.step (addCap removeCap : Nat) (s : State α) : Change α → State α
  | .add items =>
    if (s.adding ++ items).length < addCap then { s with adding := s.adding ++ items }
    else { s with settled := s.settled ∪ (s.adding ++ items).toFinset, adding := [] }
  | .remove items =>
    if (s.removing ++ items).length < removeCap then { s with removing := s.removing ++ items }
    else { s with settled := s.settled \ (s.removing ++ items).toFinset, removing := [] }

def run (addCap removeCap : Nat) (changes : List (Change α)) : State α :=
  changes.foldl (State.step addCap removeCap) ⟨∅, [], []⟩

/-- The set after both lanes are emptied, additions first. -/
def State.flushed (s : State α) : Finset α := (s.settled ∪ s.adding.toFinset) \ s.removing.toFinset

section Applied

theorem inOrder_append (first second : List (Change α)) :
    inOrder (first ++ second) = second.foldl Change.apply (inOrder first) := List.foldl_append

theorem run_append (addCap removeCap : Nat) (first second : List (Change α)) :
    run addCap removeCap (first ++ second) =
      second.foldl (State.step addCap removeCap) (run addCap removeCap first) := List.foldl_append

theorem inOrder_adds (changes : List (Change α)) (batches : List (List α)) :
    inOrder (changes ++ batches.map .add) = inOrder changes ∪ batches.flatten.toFinset := by
  rw [inOrder_append]
  generalize inOrder changes = set
  induction batches generalizing set with
  | nil => simp
  | cons batch rest ih =>
    rw [List.map_cons, List.foldl_cons, ih, List.flatten_cons, List.toFinset_append,
      ← Finset.union_assoc]
    rfl

theorem inOrder_removes (changes : List (Change α)) (batches : List (List α)) :
    inOrder (changes ++ batches.map .remove) = inOrder changes \ batches.flatten.toFinset := by
  rw [inOrder_append]
  generalize inOrder changes = set
  induction batches generalizing set with
  | nil => simp
  | cons batch rest ih =>
    rw [List.map_cons, List.foldl_cons, ih, List.flatten_cons, List.toFinset_append,
      ← Finset.sup_eq_union, ← sdiff_sdiff_left]
    rfl

variable {x : α} {set : Finset α}

/-- Changes of other items leave an item as it is. -/
theorem mem_foldl_apply_of_absent {changes : List (Change α)} (absent : ∀ c ∈ changes, x ∉ c.items) :
    x ∈ changes.foldl Change.apply set ↔ x ∈ set := by
  induction changes generalizing set with
  | nil => rfl
  | cons c rest ih =>
    have first := absent c List.mem_cons_self
    rw [List.foldl_cons, ih fun d hd => absent d (List.mem_cons_of_mem c hd)]
    cases c with
    | add items =>
      simp only [Change.items] at first
      simp [Change.apply, first]
    | remove items =>
      simp only [Change.items] at first
      simp [Change.apply, first]

/-- In order, the last change of an item decides. -/
theorem mem_inOrder_of_last (before : List (Change α)) {after : List (Change α)} {c : Change α} (here : x ∈ c.items)
    (absent : ∀ d ∈ after, x ∉ d.items) :
    x ∈ inOrder (before ++ c :: after) ↔ x ∈ c.added := by
  rw [inOrder_append, List.foldl_cons, mem_foldl_apply_of_absent absent]
  cases c with
  | add items =>
    simp only [Change.items] at here
    simp [Change.apply, Change.added, here]
  | remove items =>
    simp only [Change.items] at here
    simp [Change.apply, Change.added, here]

end Applied

section Quiet

variable {addCap removeCap : Nat} {s : State α} {x : α}

/-- What a change of other items can do to an item: nothing, or it completes a
lane in which the item waits or not. -/
theorem step_quiet (addCap removeCap : Nat) {c : Change α} (absent : x ∉ c.items) :
    let t := s.step addCap removeCap c
    ((x ∈ t.settled ↔ x ∈ s.settled) ∧ (x ∈ t.adding ↔ x ∈ s.adding) ∧
        (x ∈ t.removing ↔ x ∈ s.removing)) ∨
      ((x ∈ t.settled ↔ x ∈ s.settled ∨ x ∈ s.adding) ∧ x ∉ t.adding ∧
        (x ∈ t.removing ↔ x ∈ s.removing)) ∨
      ((x ∈ t.settled ↔ x ∈ s.settled ∧ x ∉ s.removing) ∧ (x ∈ t.adding ↔ x ∈ s.adding) ∧
        x ∉ t.removing) := by
  cases c with
  | add items =>
    simp only [Change.items] at absent
    simp only [State.step]
    split
    · left
      simp [absent]
    · right
      left
      simp [absent]
  | remove items =>
    simp only [Change.items] at absent
    simp only [State.step]
    split
    · left
      simp [absent]
    · right
      right
      simp [absent]

theorem mem_flushed : x ∈ s.flushed ↔ (x ∈ s.settled ∨ x ∈ s.adding) ∧ x ∉ s.removing := by
  simp [State.flushed]

/-- An item that waits to be added, or is in the set, and does not wait to be
removed ends up in the set. -/
theorem stays_of_absent (addCap removeCap : Nat) {changes : List (Change α)}
    (absent : ∀ c ∈ changes, x ∉ c.items)
    (inside : x ∈ s.settled ∨ x ∈ s.adding) (kept : x ∉ s.removing) :
    x ∈ (changes.foldl (State.step addCap removeCap) s).flushed := by
  induction changes generalizing s with
  | nil => exact mem_flushed.mpr ⟨inside, kept⟩
  | cons c rest ih =>
    have others : ∀ d ∈ rest, x ∉ d.items := fun d hd => absent d (List.mem_cons_of_mem c hd)
    rw [List.foldl_cons]
    rcases step_quiet addCap removeCap (s := s)
      (absent c List.mem_cons_self) with ⟨settled, adding, removing⟩ | ⟨settled, -, removing⟩ |
      ⟨settled, adding, removing⟩
    · exact ih others (by rw [settled, adding]; exact inside) (by rw [removing]; exact kept)
    · exact ih others (Or.inl (settled.mpr inside)) (by rw [removing]; exact kept)
    · refine ih others (by rw [settled, adding]; exact inside.imp_left fun h => ⟨h, kept⟩) removing

/-- An item that waits to be removed, or is not in the set, and does not wait to
be added ends up outside. -/
theorem leaves_of_absent (addCap removeCap : Nat) {changes : List (Change α)}
    (absent : ∀ c ∈ changes, x ∉ c.items)
    (outside : x ∈ s.removing ∨ x ∉ s.settled) (gone : x ∉ s.adding) :
    x ∉ (changes.foldl (State.step addCap removeCap) s).flushed := by
  induction changes generalizing s with
  | nil =>
    rw [List.foldl_nil, mem_flushed]
    tauto
  | cons c rest ih =>
    have others : ∀ d ∈ rest, x ∉ d.items := fun d hd => absent d (List.mem_cons_of_mem c hd)
    rw [List.foldl_cons]
    rcases step_quiet addCap removeCap (s := s)
      (absent c List.mem_cons_self) with ⟨settled, adding, removing⟩ | ⟨settled, adding, removing⟩ |
      ⟨settled, adding, removing⟩
    · exact ih others (by rw [settled, removing]; exact outside) (by rw [adding]; exact gone)
    · exact ih others (by rw [settled, removing]; tauto) adding
    · exact ih others (Or.inr (by rw [settled]; tauto)) (by rw [adding]; exact gone)

/-- The property holds after every part of the remaining changes. -/
def Throughout (P : State α → Prop) (addCap removeCap : Nat) (s : State α)
    (changes : List (Change α)) : Prop :=
  ∀ part, part <+: changes → P (part.foldl (State.step addCap removeCap) s)

theorem throughout_nil {P : State α → Prop} : Throughout P addCap removeCap s [] ↔ P s := by
  constructor
  · intro all
    exact all [] List.nil_prefix
  · intro here part begins
    rw [List.prefix_nil.mp begins]
    exact here

theorem throughout_cons {P : State α → Prop} {c : Change α} {rest : List (Change α)} :
    Throughout P addCap removeCap s (c :: rest) ↔
      P s ∧ Throughout P addCap removeCap (s.step addCap removeCap c) rest := by
  constructor
  · intro all
    refine ⟨all [] List.nil_prefix, fun part begins => ?_⟩
    exact all (c :: part) ((List.prefix_cons_inj c).mpr begins)
  · rintro ⟨here, all⟩ part begins
    cases part with
    | nil => exact here
    | cons d part =>
      obtain ⟨rfl, tail⟩ := List.cons_prefix_cons.mp begins
      exact all part tail

/-- What the last removal left stays, unless the item waits to be added alone. -/
theorem step_outside (addCap removeCap : Nat) {c : Change α} (absent : x ∉ c.items)
    (outside : x ∈ s.removing ∨ x ∉ s.settled) (paired : x ∈ s.adding → x ∈ s.removing) :
    x ∈ (s.step addCap removeCap c).removing ∨ x ∉ (s.step addCap removeCap c).settled := by
  rcases step_quiet addCap removeCap (s := s) absent with
    ⟨settled, adding, removing⟩ | ⟨settled, adding, removing⟩ | ⟨settled, adding, removing⟩
  · rw [settled, removing]
    exact outside
  · rw [settled, removing]
    tauto
  · rw [settled]
    tauto

/-- What the last addition left stays, unless the item waits to be removed alone. -/
theorem step_inside (addCap removeCap : Nat) {c : Change α} (absent : x ∉ c.items)
    (inside : x ∈ s.adding ∨ x ∈ s.settled) (paired : x ∈ s.removing → x ∈ s.adding) :
    x ∈ (s.step addCap removeCap c).adding ∨ x ∈ (s.step addCap removeCap c).settled := by
  rcases step_quiet addCap removeCap (s := s) absent with
    ⟨settled, adding, removing⟩ | ⟨settled, adding, removing⟩ | ⟨settled, adding, removing⟩
  · rw [settled, adding]
    exact inside
  · rw [settled]
    tauto
  · rw [settled, adding]
    tauto

/-- After the last removal of an item, it ends up outside exactly when it never
waits to be added without waiting to be removed as well. -/
theorem removed_iff {changes : List (Change α)} (absent : ∀ c ∈ changes, x ∉ c.items)
    (outside : x ∈ s.removing ∨ x ∉ s.settled) :
    x ∉ (changes.foldl (State.step addCap removeCap) s).flushed ↔
      Throughout (fun t => x ∈ t.adding → x ∈ t.removing) addCap removeCap s changes := by
  induction changes generalizing s with
  | nil =>
    rw [throughout_nil, List.foldl_nil, mem_flushed]
    tauto
  | cons c rest ih =>
    have others : ∀ d ∈ rest, x ∉ d.items := fun d hd => absent d (List.mem_cons_of_mem c hd)
    rw [throughout_cons]
    by_cases paired : x ∈ s.adding → x ∈ s.removing
    · have next := step_outside addCap removeCap
        (absent c List.mem_cons_self) outside paired
      rw [List.foldl_cons, ih others next, and_iff_right paired]
    · obtain ⟨waits, alone⟩ := Classical.not_imp.mp paired
      have final := stays_of_absent addCap removeCap absent
        (Or.inr waits) alone
      exact iff_of_false (not_not_intro final) fun kept => paired kept.1

/-- After the last addition of an item, it ends up in the set exactly when it
never waits to be removed alone, and does not wait to be removed at the end. -/
theorem added_iff {changes : List (Change α)} (absent : ∀ c ∈ changes, x ∉ c.items)
    (inside : x ∈ s.adding ∨ x ∈ s.settled) :
    x ∈ (changes.foldl (State.step addCap removeCap) s).flushed ↔
      Throughout (fun t => x ∈ t.removing → x ∈ t.adding) addCap removeCap s changes ∧
        x ∉ (changes.foldl (State.step addCap removeCap) s).removing := by
  induction changes generalizing s with
  | nil =>
    rw [throughout_nil, List.foldl_nil, mem_flushed]
    tauto
  | cons c rest ih =>
    have others : ∀ d ∈ rest, x ∉ d.items := fun d hd => absent d (List.mem_cons_of_mem c hd)
    rw [throughout_cons]
    by_cases paired : x ∈ s.removing → x ∈ s.adding
    · have next := step_inside addCap removeCap
        (absent c List.mem_cons_self) inside paired
      rw [List.foldl_cons, ih others next, and_iff_right paired]
    · obtain ⟨waits, alone⟩ := Classical.not_imp.mp paired
      have final := leaves_of_absent addCap removeCap absent
        (Or.inl waits) alone
      exact iff_of_false final fun kept => paired kept.1.1

end Quiet

section Order

variable {addCap removeCap : Nat} {x : α}

/-- After its last change an item never waits in the other lane alone, and an
item that was added last does not wait to be removed at the end. -/
def KeepsOrder (addCap removeCap : Nat) (changes : List (Change α)) : Prop :=
  ∀ before c after, changes = before ++ c :: after → ∀ x ∈ c.items, (∀ d ∈ after, x ∉ d.items) →
    (x ∈ c.removed → ∀ part, part <+: after →
      x ∈ (run addCap removeCap (before ++ c :: part)).adding →
        x ∈ (run addCap removeCap (before ++ c :: part)).removing) ∧
    (x ∈ c.added →
      (∀ part, part <+: after →
        x ∈ (run addCap removeCap (before ++ c :: part)).removing →
          x ∈ (run addCap removeCap (before ++ c :: part)).adding) ∧
      x ∉ (run addCap removeCap changes).removing)

/-- The same for the changes that a stream of other events stands for. -/
theorem keepsOrder_map {ε : Type} (change : ε → Change α) (stream : List ε) :
    KeepsOrder addCap removeCap (stream.map change) ↔
      ∀ before e after, stream = before ++ e :: after → ∀ x ∈ (change e).items,
        (∀ d ∈ after, x ∉ (change d).items) →
        (x ∈ (change e).removed → ∀ part, part <+: after →
          x ∈ (run addCap removeCap ((before ++ e :: part).map change)).adding →
            x ∈ (run addCap removeCap ((before ++ e :: part).map change)).removing) ∧
        (x ∈ (change e).added →
          (∀ part, part <+: after →
            x ∈ (run addCap removeCap ((before ++ e :: part).map change)).removing →
              x ∈ (run addCap removeCap ((before ++ e :: part).map change)).adding) ∧
          x ∉ (run addCap removeCap (stream.map change)).removing) := by
  constructor
  · rintro keeps before e after rfl x here absent
    have later : ∀ d ∈ after.map change, x ∉ d.items := by
      intro d member
      obtain ⟨event, listed, rfl⟩ := List.mem_map.mp member
      exact absent event listed
    obtain ⟨removed, added⟩ := keeps (before.map change) (change e) (after.map change)
      (by rw [List.map_append, List.map_cons]) x here later
    simp only [List.map_append, List.map_cons] at added ⊢
    refine ⟨fun outside part begins => removed outside _ (begins.map change), fun inside => ?_⟩
    exact ⟨fun part begins => (added inside).1 _ (begins.map change), (added inside).2⟩
  · intro keeps before c after split x here absent
    obtain ⟨first, others, rfl, rfl, tail⟩ := List.map_eq_append_iff.mp split
    obtain ⟨e, rest, rfl, rfl, rfl⟩ := List.map_eq_cons_iff.mp tail
    have later : ∀ d ∈ rest, x ∉ (change d).items := fun d listed =>
      absent (change d) (List.mem_map_of_mem listed)
    obtain ⟨removed, added⟩ := keeps first e rest rfl x here later
    simp only [List.map_append, List.map_cons] at removed added ⊢
    refine ⟨fun outside part begins => ?_, fun inside => ⟨fun part begins => ?_, (added inside).2⟩⟩
    · obtain ⟨events, initial, rfl⟩ := List.prefix_map_iff.mp begins
      exact removed outside events initial
    · obtain ⟨events, initial, rfl⟩ := List.prefix_map_iff.mp begins
      exact (added inside).1 events initial

/-- An item has a last change, or none at all. -/
theorem absent_or_last (changes : List (Change α)) (x : α) :
    (∀ c ∈ changes, x ∉ c.items) ∨
      ∃ before c after, changes = before ++ c :: after ∧ x ∈ c.items ∧ ∀ d ∈ after, x ∉ d.items := by
  induction changes with
  | nil => simp
  | cons first rest ih =>
    rcases ih with absent | ⟨before, c, after, rfl, last⟩
    · by_cases here : x ∈ first.items
      · exact Or.inr ⟨[], first, rest, rfl, here, absent⟩
      · exact Or.inl (List.forall_mem_cons.mpr ⟨here, absent⟩)
    · exact Or.inr ⟨first :: before, c, after, rfl, last⟩

theorem run_snoc (changes : List (Change α)) (c : Change α) (part : List (Change α)) :
    run addCap removeCap (changes ++ c :: part) =
      part.foldl (State.step addCap removeCap)
        ((run addCap removeCap changes).step addCap removeCap c) := by
  rw [run_append, List.foldl_cons]

theorem step_remove_here {s : State α} {items : List α} (here : x ∈ items) :
    x ∈ (s.step addCap removeCap (.remove items)).removing ∨
      x ∉ (s.step addCap removeCap (.remove items)).settled := by
  simp only [State.step]
  split
  · left
    simp [here]
  · right
    simp [here]

theorem step_add_here {s : State α} {items : List α} (here : x ∈ items) :
    x ∈ (s.step addCap removeCap (.add items)).adding ∨
      x ∈ (s.step addCap removeCap (.add items)).settled := by
  simp only [State.step]
  split
  · left
    simp [here]
  · right
    simp [here]

/-- The lanes lead to the set of the changes in order exactly when they keep the
order that matters. -/
theorem flushed_eq_inOrder_iff (addCap removeCap : Nat) (changes : List (Change α)) :
    (run addCap removeCap changes).flushed = inOrder changes ↔
      KeepsOrder addCap removeCap changes := by
  constructor
  · rintro same before c after rfl x here absent
    have decided := mem_inOrder_of_last before here absent
    rw [← same, run_snoc] at decided
    cases c with
    | add items =>
      refine ⟨fun contrary => by simp [Change.removed] at contrary, fun inside => ?_⟩
      simp only [run_snoc]
      exact (added_iff absent (step_add_here here)).mp (decided.mpr inside)
    | remove items =>
      refine ⟨fun inside => ?_, fun contrary => by simp [Change.added] at contrary⟩
      have outside : x ∉ (Change.remove items).added := by simp [Change.added]
      simp only [run_snoc]
      exact (removed_iff absent (step_remove_here here)).mp (mt decided.mp outside)
  · intro keeps
    ext x
    rcases absent_or_last changes x with absent | ⟨before, c, after, rfl, here, absent⟩
    · have outside : x ∉ (run addCap removeCap changes).flushed :=
        leaves_of_absent addCap removeCap absent (Or.inr (by simp)) (by simp)
      have apart : x ∉ inOrder changes :=
        mt (mem_foldl_apply_of_absent absent).mp (by simp)
      exact iff_of_false outside apart
    · obtain ⟨removed, added⟩ := keeps before c after rfl x here absent
      simp only [run_snoc] at removed added
      rw [mem_inOrder_of_last before here absent, run_snoc]
      cases c with
      | add items =>
        have inside : x ∈ (Change.add items).added := here
        exact iff_of_true ((added_iff absent (step_add_here here)).mpr (added inside)) inside
      | remove items =>
        have outside : x ∉ (Change.remove items).added := by simp [Change.added]
        exact iff_of_false ((removed_iff absent (step_remove_here here)).mpr (removed here)) outside

end Order

section Waiting

variable {addCap removeCap width : Nat} {changes : List (Change α)}

/-- What waits to be added is what is left over of all additions after the full
batches, when every change has one number of items that divides the size of the
lane. -/
theorem run_adding (positive : 0 < addCap) (divides : width ∣ addCap)
    (uniform : ∀ c ∈ changes, c.items.length = width) :
    (run addCap removeCap changes).adding = leftover addCap (changes.flatMap Change.added) := by
  induction changes using List.reverseRecOn with
  | nil => exact (leftover_of_lt positive).symm
  | append_singleton before c ih =>
    have earlier : ∀ d ∈ before, d.items.length = width := fun d hd =>
      uniform d (List.mem_append_left _ hd)
    have last : c.items.length = width := uniform c (by simp)
    rw [run_snoc, List.foldl_nil, List.flatMap_append, List.flatMap_singleton]
    cases c with
    | add items =>
      have grouped := width_dvd_flatMap fun d hd => (width_dvd_part (earlier d hd)).1
      rw [Change.added, leftover_step positive divides grouped items last, ← ih earlier,
        State.step]
      split <;> rfl
    | remove items =>
      rw [Change.added, List.append_nil, ← ih earlier, State.step]
      split <;> rfl

theorem run_removing (positive : 0 < removeCap) (divides : width ∣ removeCap)
    (uniform : ∀ c ∈ changes, c.items.length = width) :
    (run addCap removeCap changes).removing =
      leftover removeCap (changes.flatMap Change.removed) := by
  induction changes using List.reverseRecOn with
  | nil => exact (leftover_of_lt positive).symm
  | append_singleton before c ih =>
    have earlier : ∀ d ∈ before, d.items.length = width := fun d hd =>
      uniform d (List.mem_append_left _ hd)
    have last : c.items.length = width := uniform c (by simp)
    rw [run_snoc, List.foldl_nil, List.flatMap_append, List.flatMap_singleton]
    cases c with
    | add items =>
      rw [Change.removed, List.append_nil, ← ih earlier, State.step]
      split <;> rfl
    | remove items =>
      have grouped := width_dvd_flatMap fun d hd => (width_dvd_part (earlier d hd)).2
      rw [Change.removed, leftover_step positive divides grouped items last, ← ih earlier,
        State.step]
      split <;> rfl

/-- What no longer waits after a group was added: all of it or nothing. -/
theorem handed_toFinset {capacity : Nat} (positive : 0 < capacity) (divides : width ∣ capacity)
    {items added : List α} {new : List (List α)} (grouped : width ∣ items.length)
    (group : added.length = width)
    (handed : (new.flatten ++ leftover capacity (items ++ added)).Perm
      (leftover capacity items ++ added)) :
    new.flatten.toFinset =
      if (leftover capacity items ++ added).length < capacity then ∅
      else (leftover capacity items ++ added).toFinset := by
  rw [leftover_step positive divides grouped added group] at handed
  split
  · rename_i few
    rw [if_pos few] at handed
    have nothing := List.Perm.nil_eq ((List.perm_append_right_iff _).mp
      ((List.nil_append _).symm ▸ handed.symm))
    rw [← nothing, List.toFinset_nil]
  · rename_i many
    rw [if_neg many, List.append_nil] at handed
    exact List.toFinset_eq_of_perm _ _ handed

/-- A step that hands over what no longer waits settles it. -/
theorem step_add_settled (positive : 0 < addCap) (divides : width ∣ addCap) {s : State α}
    {items added : List α} {new : List (List α)} (waiting : s.adding = leftover addCap items)
    (grouped : width ∣ items.length) (group : added.length = width)
    (handed : (new.flatten ++ leftover addCap (items ++ added)).Perm
      (leftover addCap items ++ added)) :
    (s.step addCap removeCap (.add added)).settled = s.settled ∪ new.flatten.toFinset := by
  rw [handed_toFinset positive divides grouped group handed, ← waiting]
  simp only [State.step]
  split
  · exact (Finset.union_empty _).symm
  · rfl

theorem step_remove_settled (positive : 0 < removeCap) (divides : width ∣ removeCap) {s : State α}
    {items added : List α} {new : List (List α)} (waiting : s.removing = leftover removeCap items)
    (grouped : width ∣ items.length) (group : added.length = width)
    (handed : (new.flatten ++ leftover removeCap (items ++ added)).Perm
      (leftover removeCap items ++ added)) :
    (s.step addCap removeCap (.remove added)).settled = s.settled \ new.flatten.toFinset := by
  rw [handed_toFinset positive divides grouped group handed, ← waiting]
  simp only [State.step]
  split
  · exact Finset.sdiff_empty.symm
  · rfl

end Waiting

end Zeppelin.Lanes
