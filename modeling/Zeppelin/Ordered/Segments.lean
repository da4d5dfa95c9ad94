import Zeppelin.Ordered.PartialMap
import Zeppelin.Ordered.SetLists
import Mathlib.Data.List.Infix
import Mathlib.Data.Set.Lattice
import Mathlib.Order.Interval.Set.Defs

/-! Ordered sets that are cut into segments at their heads. Which elements are
heads depends on the element alone, so that a set has one segmentation: what is
before its first head, and after each head what is before the next one. Two sets
are then combined segment by segment. -/
namespace Zeppelin.Ordered

variable {α : Type} [LinearOrder α]

/-- The list has the members of the set in ascending order. -/
structure Lists (l : List α) (S : Set α) : Prop where
  ascending : l.Pairwise (· < ·)
  mem_iff : ∀ x, x ∈ l ↔ x ∈ S

namespace Lists

variable {l r : List α} {S T : Set α}

theorem nil : Lists ([] : List α) ∅ := ⟨List.Pairwise.nil, fun _ => ⟨nofun, nofun⟩⟩

theorem congr (lists : Lists l S) (same : ∀ x, x ∈ S ↔ x ∈ T) : Lists l T :=
  ⟨lists.ascending, fun x => (lists.mem_iff x).trans (same x)⟩

theorem unique (left : Lists l S) (right : Lists r S) : l = r :=
  left.ascending.eq_of_mem_iff right.ascending fun x => (left.mem_iff x).trans (right.mem_iff x).symm

theorem eq_nil_iff (lists : Lists l S) : l = [] ↔ S = ∅ := by
  rw [List.eq_nil_iff_forall_not_mem, Set.eq_empty_iff_forall_notMem]
  exact forall_congr' fun x => not_congr (lists.mem_iff x)

theorem union (left : Lists l S) (right : Lists r T) : Lists (union l r) (S ∪ T) :=
  ⟨pairwise_union left.ascending right.ascending, fun x => by
    rw [mem_union, left.mem_iff, right.mem_iff, Set.mem_union]⟩

theorem difference (left : Lists l S) (right : Lists r T) : Lists (difference l r) (T \ S) :=
  ⟨pairwise_difference l right.ascending, fun x => by
    rw [mem_difference left.ascending right.ascending, left.mem_iff, right.mem_iff, Set.mem_sdiff]⟩

theorem filter (lists : Lists l S) (p : α → Bool) : Lists (l.filter p) {x | x ∈ S ∧ p x = true} :=
  ⟨lists.ascending.filter p, fun x => by rw [List.mem_filter, lists.mem_iff, Set.mem_ofPred_eq]⟩

/-- Two parts around an element. -/
theorem append_cons {k : α} (left : Lists l (S ∩ Set.Iio k)) (right : Lists r (S ∩ Set.Ioi k))
    (member : k ∈ S) : Lists (l ++ k :: r) S := by
  have low : ∀ x ∈ l, x < k := fun x there => ((left.mem_iff x).mp there).2
  have high : ∀ x ∈ r, k < x := fun x there => ((right.mem_iff x).mp there).2
  refine ⟨List.pairwise_append.mpr ⟨left.ascending, List.pairwise_cons.mpr ⟨high, right.ascending⟩,
    fun x first y second => ?_⟩, fun x => ?_⟩
  · rcases List.mem_cons.mp second with rfl | second
    · exact low x first
    · exact (low x first).trans (high y second)
  · rw [List.mem_append, List.mem_cons, left.mem_iff, right.mem_iff]
    constructor
    · rintro (h | rfl | h)
      · exact h.1
      · exact member
      · exact h.1
    · intro there
      rcases lt_trichotomy x k with less | same | more
      · exact .inl ⟨there, less⟩
      · exact .inr (.inl same)
      · exact .inr (.inr ⟨there, more⟩)

/-- The last of the list is its greatest member. -/
theorem le_getLast (lists : Lists l S) {x z : α} (member : x ∈ l) (last : l.getLast? = some z) :
    x ≤ z := by
  obtain ⟨front, rfl⟩ := List.getLast?_eq_some_iff.mp last
  rcases List.mem_append.mp member with early | late
  · exact ((List.pairwise_append.mp lists.ascending).2.2 x early z (List.mem_singleton_self z)).le
  · exact (List.mem_singleton.mp late).le

theorem head_le (lists : Lists l S) {x z : α} (member : x ∈ l) (first : l.head? = some z) :
    z ≤ x := by
  obtain ⟨rest, rfl⟩ := List.head?_eq_some_iff.mp first
  rcases List.mem_cons.mp member with rfl | late
  · exact le_rfl
  · exact (List.rel_of_pairwise_cons lists.ascending late).le

end Lists

/-- An operation on ascending lists that treats each element by itself, and leaves the
second list as it is where the first has nothing. -/
structure Pointwise (op : List α → List α → List α) (rule : Prop → Prop → Prop) : Prop where
  lists : ∀ {l r : List α} {S T : Set α}, Lists l S → Lists r T →
    Lists (op l r) {x | rule (x ∈ S) (x ∈ T)}
  right : ∀ t, rule False t ↔ t

theorem pointwise_union : Pointwise (@union α _) fun p t => p ∨ t where
  lists left right := left.union right
  right t := iff_of_eq (false_or t)

theorem pointwise_difference : Pointwise (@difference α _) fun p t => t ∧ ¬p where
  lists left right := left.difference right
  right _ := and_iff_left not_false

namespace Pointwise

variable {op : List α → List α → List α} {rule : Prop → Prop → Prop}

theorem of_not (pointwise : Pointwise op rule) {p t : Prop} (absent : ¬p) : rule p t ↔ t := by
  rw [eq_false absent]
  exact pointwise.right t

theorem either (pointwise : Pointwise op rule) {p t : Prop} (ruled : rule p t) : p ∨ t := by
  by_cases present : p
  · exact .inl present
  · exact .inr ((pointwise.of_not present).mp ruled)

theorem nil_left (pointwise : Pointwise op rule) {r : List α} {T : Set α} (lists : Lists r T) :
    op [] r = r :=
  (pointwise.lists Lists.nil lists).unique (lists.congr fun _ => (pointwise.of_not nofun).symm)

end Pointwise

/-- The members before the first head. -/
def leading (head : α → Prop) (S : Set α) : Set α := {x | x ∈ S ∧ ∀ y ∈ S, head y → x < y}

variable {head : α → Prop} {S T : Set α} {plus c : List α} {f : α → Option (List α)} {k : α}

theorem not_head_of_leading {x : α} (first : x ∈ leading head S) : ¬head x :=
  fun isHead => lt_irrefl x (first.2 x first.1 isHead)

/-- Without heads, all members are leading. -/
theorem leading_eq_self (none : ∀ x ∈ S, ¬head x) : leading head S = S := by
  ext x
  exact ⟨And.left, fun member => ⟨member, fun y there isHead => absurd isHead (none y there)⟩⟩

/-- Without what is leading, a set starts with a head. -/
theorem leading_sdiff_leading : leading head (S \ leading head S) = ∅ := by
  rw [Set.eq_empty_iff_forall_notMem]
  rintro x ⟨⟨member, other⟩, before⟩
  refine other ⟨member, fun y there isHead => before y ⟨there, fun leads => ?_⟩ isHead⟩
  exact not_head_of_leading leads isHead

/-- A head ends what is leading. -/
theorem leading_inter_Iio (member : k ∈ S) (isHead : head k) :
    leading head (S ∩ Set.Iio k) = leading head S := by
  ext x
  constructor
  · rintro ⟨⟨there, less⟩, before⟩
    refine ⟨there, fun y other isHead' => ?_⟩
    by_cases below : y < k
    · exact before y ⟨other, below⟩ isHead'
    · exact lt_of_lt_of_le less (not_lt.mp below)
  · rintro ⟨there, before⟩
    exact ⟨⟨there, before k member isHead⟩, fun y other => before y other.1⟩

/-- The segments of a set: what is before the first head, and for each head what
is between it and the next one. -/
structure Segmented (head : α → Prop) (S : Set α) (plus : List α) (f : α → Option (List α)) :
    Prop where
  plus : Lists plus (leading head S)
  keys : ∀ k, (∃ c, f k = some c) ↔ k ∈ S ∧ head k
  chunk : ∀ k c, f k = some c → Lists c (leading head (S ∩ Set.Ioi k))

namespace Segmented

theorem congr (segmented : Segmented head S plus f) (same : S = T) : Segmented head T plus f :=
  same ▸ segmented

theorem not_head (segmented : Segmented head S plus fun _ => none) {x : α} (member : x ∈ S) :
    ¬head x := by
  intro isHead
  obtain ⟨c, found⟩ := (segmented.keys x).mpr ⟨member, isHead⟩
  cases found

/-- A set without heads is one list. -/
theorem leaf_iff : Segmented head S plus (fun _ => none) ↔ Lists plus S ∧ ∀ x ∈ S, ¬head x := by
  constructor
  · intro segmented
    have none : ∀ x ∈ S, ¬head x := fun x => segmented.not_head
    exact ⟨leading_eq_self none ▸ segmented.plus, none⟩
  · rintro ⟨lists, none⟩
    refine ⟨(leading_eq_self none).symm ▸ lists, fun k => ⟨nofun, fun h => ?_⟩, nofun⟩
    exact absurd h.2 (none k h.1)

/-- On both sides of a head, a set has the segments of the whole. -/
theorem node_iff (found : f k = some c) : Segmented head S plus f ↔
    k ∈ S ∧ head k ∧ Segmented head (S ∩ Set.Iio k) plus (below k f) ∧
      Segmented head (S ∩ Set.Ioi k) c (above k f) := by
  constructor
  · intro whole
    obtain ⟨member, isHead⟩ := (whole.keys k).mp ⟨c, found⟩
    refine ⟨member, isHead, ⟨?_, fun j => ?_, fun j d => ?_⟩,
      ⟨whole.chunk k c found, fun j => ?_, fun j d => ?_⟩⟩
    · rw [leading_inter_Iio member isHead]
      exact whole.plus
    · simp only [below_eq_some, exists_and_left, whole.keys, Set.mem_inter_iff, Set.mem_Iio]
      tauto
    · rw [below_eq_some]
      rintro ⟨less, here⟩
      have same : S ∩ Set.Iio k ∩ Set.Ioi j = S ∩ Set.Ioi j ∩ Set.Iio k := Set.inter_right_comm ..
      rw [same, leading_inter_Iio (S := S ∩ Set.Ioi j) ⟨member, less⟩ isHead]
      exact whole.chunk j d here
    · simp only [above_eq_some, exists_and_left, whole.keys, Set.mem_inter_iff, Set.mem_Ioi]
      tauto
    · rw [above_eq_some]
      rintro ⟨less, here⟩
      have same : S ∩ Set.Ioi k ∩ Set.Ioi j = S ∩ Set.Ioi j := by
        rw [Set.inter_assoc, Set.inter_eq_self_of_subset_right (Set.Ioi_subset_Ioi less.le)]
      rw [same]
      exact whole.chunk j d here
  · rintro ⟨member, isHead, left, right⟩
    refine ⟨?_, fun j => ?_, fun j d here => ?_⟩
    · rw [← leading_inter_Iio member isHead]
      exact left.plus
    · have low := left.keys j
      have high := right.keys j
      simp only [below_eq_some, above_eq_some, exists_and_left, Set.mem_inter_iff, Set.mem_Iio,
        Set.mem_Ioi] at low high
      rcases lt_trichotomy j k with less | rfl | more
      · simpa [less] using low
      · exact ⟨fun _ => ⟨member, isHead⟩, fun _ => ⟨c, found⟩⟩
      · simpa [more] using high
    · rcases lt_trichotomy j k with less | rfl | more
      · have lists := left.chunk j d (below_eq_some.mpr ⟨less, here⟩)
        have same : S ∩ Set.Iio k ∩ Set.Ioi j = S ∩ Set.Ioi j ∩ Set.Iio k := Set.inter_right_comm ..
        rwa [same, leading_inter_Iio (S := S ∩ Set.Ioi j) ⟨member, less⟩ isHead] at lists
      · obtain rfl : c = d := Option.some.inj (found.symm.trans here)
        exact right.plus
      · have lists := right.chunk j d (above_eq_some.mpr ⟨more, here⟩)
        rwa [Set.inter_assoc, Set.inter_eq_self_of_subset_right (Set.Ioi_subset_Ioi more.le)] at lists

/-- Two sets one after the other, of which the second starts with a head. -/
theorem append {f g h : α → Option (List α)} (left : Segmented head S plus f)
    (right : Segmented head T [] g) (order : ∀ x ∈ S, ∀ y ∈ T, x < y)
    (either : ∀ j c, h j = some c ↔ f j = some c ∨ g j = some c) :
    Segmented head (S ∪ T) plus h := by
  have unled : ∀ x, x ∉ leading head T := by
    rw [← Set.eq_empty_iff_forall_notMem, ← right.plus.eq_nil_iff]
  -- what is leading is in the first set
  have before : ∀ U ⊆ S, leading head (U ∪ T) = leading head U := by
    intro U within
    ext x
    constructor
    · rintro ⟨early | late, first⟩
      · exact ⟨early, fun y there => first y (.inl there)⟩
      · exact absurd ⟨late, fun y there => first y (.inr there)⟩ (unled x)
    · rintro ⟨there, first⟩
      refine ⟨.inl there, ?_⟩
      rintro y (early | late) isHead
      · exact first y early isHead
      · exact order x (within there) y late
  refine ⟨?_, fun j => ?_, fun j c here => ?_⟩
  · rw [before S subset_rfl]
    exact left.plus
  · simp only [either, exists_or, left.keys, right.keys, Set.mem_union, or_and_right]
  · rcases (either j c).mp here with first | second
    · have member := ((left.keys j).mp ⟨c, first⟩).1
      have all : T ∩ Set.Ioi j = T := Set.inter_eq_left.mpr fun y there => order j member y there
      rw [Set.union_inter_distrib_right, all, before _ Set.inter_subset_left]
      exact left.chunk j c first
    · have member := ((right.keys j).mp ⟨c, second⟩).1
      have none : S ∩ Set.Ioi j = ∅ := by
        rw [Set.eq_empty_iff_forall_notMem]
        exact fun x there => not_lt_of_gt there.2 (order x there.1 j member)
      rw [Set.union_inter_distrib_right, none, Set.empty_union]
      exact right.chunk j c second

/-- Heads and what is after them stay, with other members before the first head. -/
theorem refill (segmented : Segmented head S plus f) {g : α → Option (List α)} {q : List α}
    (heads : ∀ x, head x → (x ∈ T ↔ x ∈ S)) (lists : Lists q (leading head T))
    (keys : ∀ k, (∃ c, g k = some c) ↔ ∃ c, f k = some c)
    (chunks : ∀ k c, g k = some c → Lists c (leading head (T ∩ Set.Ioi k))) :
    Segmented head T q g := by
  refine ⟨lists, fun k => ?_, chunks⟩
  rw [keys, segmented.keys]
  constructor
  · rintro ⟨member, isHead⟩
    exact ⟨(heads k isHead).mpr member, isHead⟩
  · rintro ⟨member, isHead⟩
    exact ⟨(heads k isHead).mp member, isHead⟩

/-- Other members before the first head. -/
theorem setPlus (segmented : Segmented head S plus f) {q : List α} {Q : Set α} (lists : Lists q Q)
    (low : ∀ x ∈ Q, ¬head x ∧ ∀ y ∈ S, head y → x < y) :
    Segmented head (Q ∪ S \ leading head S) q f := by
  have heads : ∀ x, head x → (x ∈ Q ∪ S \ leading head S ↔ x ∈ S) := by
    intro x isHead
    constructor
    · rintro (early | late)
      · exact absurd isHead (low x early).1
      · exact late.1
    · exact fun member => .inr ⟨member, fun leads => not_head_of_leading leads isHead⟩
  refine segmented.refill heads (lists.congr fun x => ⟨fun early => ?_, fun leads => ?_⟩)
    (fun _ => Iff.rfl) fun k c here => ?_
  · exact ⟨.inl early, fun y there isHead => (low x early).2 y ((heads y isHead).mp there) isHead⟩
  · obtain ⟨early | late, before⟩ := leads
    · exact early
    · exact absurd ⟨late.1, fun y there isHead => before y ((heads y isHead).mpr there) isHead⟩ late.2
  · obtain ⟨member, isHead⟩ := (segmented.keys k).mp ⟨c, here⟩
    have same : (Q ∪ S \ leading head S) ∩ Set.Ioi k = S ∩ Set.Ioi k := by
      ext x
      constructor
      · rintro ⟨early | late, more⟩
        · exact absurd ((low x early).2 k member isHead) more.not_gt
        · exact ⟨late.1, more⟩
      · rintro ⟨there, more⟩
        exact ⟨.inr ⟨there, fun leads => (leads.2 k member isHead).not_gt more⟩, more⟩
    rw [same]
    exact segmented.chunk k c here

end Segmented

/-- The segments of a list: what is before the first head, and the heads with what
is between each and the next one. -/
def segments (head : α → Prop) [DecidablePred head] : List α → List α × List (α × List α)
  | [] => ([], [])
  | x :: l =>
    if head x then ([], (x, (segments head l).1) :: (segments head l).2)
    else (x :: (segments head l).1, (segments head l).2)

theorem segmented_segments [DecidablePred head] {l : List α} (ascending : l.Pairwise (· < ·)) :
    ∃ f, Represents (segments head l).2 f ∧
      Segmented head {x | x ∈ l} (segments head l).1 f := by
  induction l with
  | nil =>
    refine ⟨fun _ => .none, Represents.nil, Segmented.leaf_iff.mpr ⟨⟨List.Pairwise.nil, fun x => ?_⟩, ?_⟩⟩
    · rfl
    · exact fun x member => absurd member List.not_mem_nil
  | cons x l ih =>
    obtain ⟨f, represents, segmented⟩ := ih ascending.of_cons
    have less : ∀ y ∈ l, x < y := fun y => List.rel_of_pairwise_cons ascending
    have upper : ∀ y v, f y = some v → x < y := fun y v value =>
      less y ((segmented.keys y).mp ⟨v, value⟩).1
    rw [segments]
    split
    next isHead =>
      have lower : below x (paste x (fun _ => .none) (some (segments head l).1) f) = fun _ => .none :=
        below_paste.trans (below_none x)
      have higher : above x (paste x (fun _ => .none) (some (segments head l).1) f) = f :=
        above_paste.trans (above_eq_self upper)
      refine ⟨paste x (fun _ => .none) (some (segments head l).1) f, ?_, ?_⟩
      · rw [← List.nil_append ((x, _) :: _), Represents.append_cons_iff, lower, higher]
        exact ⟨Represents.nil, paste_self, represents⟩
      · rw [Segmented.node_iff paste_self, lower, higher]
        refine ⟨List.mem_cons_self .., isHead, Segmented.leaf_iff.mpr ⟨⟨List.Pairwise.nil, fun y => ?_⟩, ?_⟩,
          segmented.congr ?_⟩
        · refine ⟨fun none => absurd none List.not_mem_nil, fun member => ?_⟩
          rcases List.mem_cons.mp member.1 with rfl | later
          · exact absurd member.2 (lt_irrefl y)
          · exact absurd (less y later) (not_lt_of_gt member.2)
        · rintro y ⟨member, below⟩
          rcases List.mem_cons.mp member with rfl | later
          · exact absurd below (lt_irrefl y)
          · exact absurd (less y later) (not_lt_of_gt below)
        · ext y
          constructor
          · exact fun member => ⟨List.mem_cons_of_mem x member, less y member⟩
          · rintro ⟨member, above⟩
            rcases List.mem_cons.mp member with rfl | later
            · exact absurd above (lt_irrefl y)
            · exact later
    next other =>
      refine ⟨f, represents, ?_⟩
      have lists : Lists (x :: (segments head l).1) (insert x (leading head {y | y ∈ l})) := by
        refine ⟨List.pairwise_cons.mpr ⟨fun y member => ?_, segmented.plus.ascending⟩, fun y => ?_⟩
        · exact less y ((segmented.plus.mem_iff y).mp member).1
        · rw [List.mem_cons, segmented.plus.mem_iff, Set.mem_insert_iff]
      refine (segmented.setPlus lists ?_).congr ?_
      · rintro y (rfl | leads)
        · exact ⟨other, fun z member _ => less z member⟩
        · exact ⟨not_head_of_leading leads, leads.2⟩
      · ext y
        constructor
        · rintro ((rfl | leads) | later)
          · exact List.mem_cons_self ..
          · exact List.mem_cons_of_mem x leads.1
          · exact List.mem_cons_of_mem x later.1
        · intro member
          rcases List.mem_cons.mp member with rfl | later
          · exact .inl (.inl rfl)
          · by_cases leads : y ∈ leading head {y | y ∈ l}
            · exact .inl (.inr leads)
            · exact .inr ⟨later, leads⟩

section Runs

variable {n : Nat} {l l' : List α}

/-- Every run of elements without a head is shorter than the bound. -/
def RunsBelow (head : α → Prop) (n : Nat) (l : List α) : Prop :=
  ∀ run, run <:+: l → (∀ x ∈ run, ¬head x) → run.length < n

omit [LinearOrder α] in
theorem RunsBelow.of_infix (runs : RunsBelow head n l) (inside : l' <:+: l) :
    RunsBelow head n l' :=
  fun run within => runs run (within.trans inside)

omit [LinearOrder α] in
theorem runsBelow_of_length (short : l.length < n) : RunsBelow head n l :=
  fun _ within _ => within.length_le.trans_lt short

omit [LinearOrder α] in
/-- A list without heads is one run. -/
theorem runsBelow_iff_length (none : ∀ x ∈ l, ¬head x) : RunsBelow head n l ↔ l.length < n :=
  ⟨fun runs => runs l List.infix_rfl none, runsBelow_of_length⟩

omit [LinearOrder α] in
/-- What is inside a list and misses one of its elements is on one side of it. -/
theorem infix_of_not_mem {run : List α} (inside : run <:+: l ++ k :: l') (misses : k ∉ run) :
    run <:+: l ∨ run <:+: l' := by
  obtain ⟨front, back, whole⟩ := inside
  rcases List.append_eq_append_iff.mp whole with ⟨c, rfl, -⟩ | ⟨c, cut, rest⟩
  · exact .inl ⟨front, c, rfl⟩
  · cases c with
    | nil =>
      rw [List.append_nil] at cut
      exact .inl ⟨front, [], by rw [List.append_nil, cut]⟩
    | cons x c =>
      obtain ⟨rfl, rfl⟩ := List.cons_eq_cons.mp rest
      rcases List.append_eq_append_iff.mp cut with ⟨d, -, rfl⟩ | ⟨d, -, tail⟩
      · exact absurd (List.mem_append_right d (List.mem_cons_self ..)) misses
      · cases d with
        | nil =>
          rw [List.nil_append] at tail
          exact absurd (tail ▸ List.mem_cons_self ..) misses
        | cons y d =>
          obtain ⟨-, rfl⟩ := List.cons_eq_cons.mp tail
          exact .inr ⟨d, back, rfl⟩

omit [LinearOrder α] in
/-- A head ends a run. -/
theorem runsBelow_append_cons (isHead : head k) :
    RunsBelow head n (l ++ k :: l') ↔ RunsBelow head n l ∧ RunsBelow head n l' := by
  constructor
  · intro runs
    refine ⟨runs.of_infix ⟨[], k :: l', rfl⟩, runs.of_infix ⟨l ++ [k], [], ?_⟩⟩
    rw [List.append_nil, List.append_assoc, List.singleton_append]
  · rintro ⟨left, right⟩ run inside none
    rcases infix_of_not_mem inside fun here => none k here isHead with early | late
    · exact left run early none
    · exact right run late none

theorem prefix_filter_lt (ascending : l.Pairwise (· < ·)) (k : α) : l.filter (· < k) <+: l := by
  induction l with
  | nil => exact List.prefix_rfl
  | cons x l ih =>
    by_cases less : x < k
    · rw [List.filter_cons, if_pos (decide_eq_true less), List.prefix_cons_inj]
      exact ih ascending.of_cons
    · have none : (x :: l).filter (· < k) = [] := by
        rw [List.filter_eq_nil_iff]
        intro y member
        rw [decide_eq_true_eq, not_lt]
        rcases List.mem_cons.mp member with rfl | later
        · exact not_lt.mp less
        · exact (not_lt.mp less).trans (List.rel_of_pairwise_cons ascending later).le
      rw [none]
      exact List.nil_prefix

theorem suffix_filter_gt (ascending : l.Pairwise (· < ·)) (k : α) : l.filter (k < ·) <:+ l := by
  induction l with
  | nil => exact List.suffix_rfl
  | cons x l ih =>
    by_cases more : k < x
    · have all : (x :: l).filter (k < ·) = x :: l := by
        rw [List.filter_eq_self]
        intro y member
        rw [decide_eq_true_eq]
        rcases List.mem_cons.mp member with rfl | later
        · exact more
        · exact more.trans (List.rel_of_pairwise_cons ascending later)
      rw [all]
    · rw [List.filter_cons, if_neg (by rwa [decide_eq_true_eq])]
      exact (ih ascending.of_cons).trans (List.suffix_cons x l)

end Runs

end Zeppelin.Ordered
