import Mathlib.Data.List.Basic
import Mathlib.Data.List.Perm.Basic
import Mathlib.Tactic.Ring

/-! A fixed array that is filled item by item, handed over as a sorted batch
whenever it is full, and reused without being cleared. Who takes the batch may
write to the array. The results say what was handed over, what is still pending,
and what an earlier batch left behind it. -/
namespace Zeppelin.Batching

variable {α : Type}

structure Buffer (α : Type) where
  cells : List α
  count : Nat
  batches : List (List α)

def fresh (capacity : Nat) (blank : α) : Buffer α := ⟨List.replicate capacity blank, 0, []⟩

/-- The full array is handed over in the order of `sort`, and holds `leave` of what
was handed over afterwards. -/
def push (sort leave : List α → List α) (b : Buffer α) (x : α) : Buffer α :=
  let cells := b.cells.set b.count x
  if b.count + 1 = cells.length then ⟨leave (sort cells), 0, b.batches ++ [sort cells]⟩
  else ⟨cells, b.count + 1, b.batches⟩

/-- The items of the full batches, and those after them. -/
def complete (capacity : Nat) (items : List α) : List α :=
  items.take (items.length / capacity * capacity)

def leftover (capacity : Nat) (items : List α) : List α :=
  items.drop (items.length / capacity * capacity)

theorem leftover_of_lt {capacity : Nat} {items : List α} (few : items.length < capacity) :
    leftover capacity items = items := by
  rw [leftover, Nat.div_eq_of_lt few, Nat.zero_mul, List.drop_zero]

/-- No batch is full while there are fewer items than one takes. -/
theorem complete_eq_nil_iff {capacity : Nat} (positive : 0 < capacity) {items : List α} :
    complete capacity items = [] ↔ items.length < capacity := by
  rw [complete, ← List.length_eq_zero_iff, List.length_take,
    Nat.min_eq_left (Nat.div_mul_le_self _ _), Nat.mul_eq_zero, Nat.div_eq_zero_iff]
  omega

theorem leftover_length (capacity : Nat) (items : List α) :
    (leftover capacity items).length = items.length % capacity := by
  rw [leftover, List.length_drop, Nat.mul_comm, ← Nat.mod_eq_sub_mul_div]

/-- Full batches in front do not count. -/
theorem leftover_full_append {capacity : Nat} (positive : 0 < capacity) {full : List α}
    (whole : capacity ∣ full.length) (rest : List α) :
    leftover capacity (full ++ rest) = leftover capacity rest := by
  obtain ⟨batches, length⟩ := whole
  have boundary : (full ++ rest).length / capacity * capacity =
      full.length + rest.length / capacity * capacity := by
    rw [List.length_append, length, Nat.mul_add_div positive, Nat.add_mul, Nat.mul_comm batches]
  rw [leftover, boundary, List.drop_length_add_append]
  rfl

/-- Only what was left over matters for what comes next. -/
theorem leftover_append {capacity : Nat} (positive : 0 < capacity) (items added : List α) :
    leftover capacity (items ++ added) = leftover capacity (leftover capacity items ++ added) := by
  have whole : complete capacity items ++ leftover capacity items = items :=
    List.take_append_drop _ _
  have length : capacity ∣ (complete capacity items).length := by
    rw [complete, List.length_take, Nat.min_eq_left (Nat.div_mul_le_self _ _)]
    exact Nat.dvd_mul_left _ _
  have shifted := leftover_full_append positive length (leftover capacity items ++ added)
  rwa [← List.append_assoc, whole] at shifted

/-- Items that come in groups fill a batch exactly when the size of a group
divides that of a batch. -/
theorem leftover_step {capacity width : Nat} (positive : 0 < capacity) (divides : width ∣ capacity)
    {items : List α} (grouped : width ∣ items.length) (added : List α)
    (group : added.length = width) :
    leftover capacity (items ++ added) =
      if (leftover capacity items ++ added).length < capacity then leftover capacity items ++ added
      else [] := by
  have short : (leftover capacity items).length < capacity := by
    rw [leftover_length]
    exact Nat.mod_lt _ positive
  have aligned : width ∣ (leftover capacity items).length := by
    rw [leftover_length]
    exact (Nat.dvd_mod_iff divides).mpr grouped
  rw [leftover_append positive]
  split
  · rename_i few
    exact leftover_of_lt few
  · rename_i many
    rw [List.length_append, group] at many
    have exact : (leftover capacity items).length + width = capacity := by
      obtain ⟨batch, hbatch⟩ := divides
      obtain ⟨waiting, hwaiting⟩ := aligned
      rw [hwaiting, hbatch] at short many
      rw [hwaiting, hbatch]
      have fewer : waiting < batch := Nat.lt_of_mul_lt_mul_left short
      have next := Nat.mul_le_mul_left width fewer
      rw [Nat.mul_succ] at next
      omega
    apply List.eq_nil_of_length_eq_zero
    rw [leftover_length, List.length_append, group, exact, Nat.mod_self]

/-- The last full batch, or an array of blanks. -/
def lastBatch (sort : List α → List α) (capacity : Nat) (blank : α) (full : List α) : List α :=
  if full.length < capacity then List.replicate capacity blank
  else sort (full.drop (full.length - capacity))

/-- What the last full batch left in the array. -/
def residue (sort leave : List α → List α) (capacity : Nat) (blank : α) (full : List α) :
    List α :=
  if full.length < capacity then List.replicate capacity blank
  else leave (lastBatch sort capacity blank full)

/-- The array after full batches and some pending items. -/
structure Filled (sort leave : List α → List α) (capacity : Nat) (blank : α)
    (full pending : List α) (b : Buffer α) : Prop where
  number : b.batches.length * capacity = full.length
  short : pending.length < capacity
  count : b.count = pending.length
  cells : b.cells = pending ++ (residue sort leave capacity blank full).drop pending.length
  handed : b.batches.flatten.Perm full
  last : b.batches.getLast?.getD (List.replicate capacity blank) =
    lastBatch sort capacity blank full

section Filling

variable {sort leave : List α → List α} {capacity : Nat} {blank : α} {full pending : List α}
  {b : Buffer α}

theorem lastBatch_length (perm : ∀ l, (sort l).Perm l) (capacity : Nat) (blank : α)
    (full : List α) : (lastBatch sort capacity blank full).length = capacity := by
  rw [lastBatch]
  split
  · exact List.length_replicate
  · rw [(perm _).length_eq, List.length_drop]
    omega

theorem residue_length (perm : ∀ l, (sort l).Perm l) (keeps : ∀ l, (leave l).length = l.length)
    (capacity : Nat) (blank : α) (full : List α) :
    (residue sort leave capacity blank full).length = capacity := by
  rw [residue]
  split
  · exact List.length_replicate
  · rw [keeps, lastBatch_length perm]

theorem Filled.whole (filled : Filled sort leave capacity blank full pending b) :
    capacity ∣ full.length := ⟨b.batches.length, by rw [← filled.number, Nat.mul_comm]⟩

theorem Filled.length (perm : ∀ l, (sort l).Perm l) (keeps : ∀ l, (leave l).length = l.length)
    (filled : Filled sort leave capacity blank full pending b) : b.cells.length = capacity := by
  have short := filled.short
  rw [filled.cells, List.length_append, List.length_drop, residue_length perm keeps]
  omega

theorem set_pending {cells : List α} (x : α) (short : pending.length < cells.length) :
    (pending ++ cells.drop pending.length).set pending.length x =
      pending ++ [x] ++ cells.drop (pending.length + 1) := by
  rw [List.set_append_right _ _ (le_refl _), Nat.sub_self, List.drop_eq_getElem_cons short,
    List.set_cons_zero, List.append_assoc, List.singleton_append]

theorem Filled.stored (perm : ∀ l, (sort l).Perm l)
    (keeps : ∀ l, (leave l).length = l.length)
    (filled : Filled sort leave capacity blank full pending b) (x : α) :
    b.cells.set b.count x =
        pending ++ [x] ++ (residue sort leave capacity blank full).drop (pending.length + 1) ∧
      (b.cells.set b.count x).length = capacity := by
  have size := residue_length perm keeps capacity blank full
  have short := filled.short
  have stored : b.cells.set b.count x =
      pending ++ [x] ++ (residue sort leave capacity blank full).drop (pending.length + 1) := by
    rw [filled.cells, filled.count, set_pending x (by omega)]
  refine ⟨stored, ?_⟩
  rw [stored, List.length_append, List.length_append, List.length_drop, size, List.length_singleton]
  omega

theorem Filled.push_pending (perm : ∀ l, (sort l).Perm l)
    (keeps : ∀ l, (leave l).length = l.length)
    (filled : Filled sort leave capacity blank full pending b) (more : pending.length + 1 < capacity)
    (x : α) :
    Filled sort leave capacity blank full (pending ++ [x]) (push sort leave b x) := by
  obtain ⟨stored, length⟩ := filled.stored perm keeps x
  have width : (pending ++ [x]).length = pending.length + 1 := by
    rw [List.length_append, List.length_singleton]
  have pushed : push sort leave b x =
      ⟨pending ++ [x] ++ (residue sort leave capacity blank full).drop (pending.length + 1),
        pending.length + 1, b.batches⟩ := by
    rw [push, stored, ← stored, length, filled.count, if_neg (by omega), ← filled.count, stored,
      filled.count]
  rw [pushed]
  exact ⟨filled.number, width ▸ more, width.symm, by rw [width], filled.handed, filled.last⟩

theorem Filled.push_full (perm : ∀ l, (sort l).Perm l)
    (keeps : ∀ l, (leave l).length = l.length)
    (filled : Filled sort leave capacity blank full pending b) (exact : pending.length + 1 = capacity)
    (x : α) :
    Filled sort leave capacity blank (full ++ (pending ++ [x])) [] (push sort leave b x) := by
  obtain ⟨stored, length⟩ := filled.stored perm keeps x
  have size := residue_length perm keeps capacity blank full
  rw [List.drop_eq_nil_of_le (by omega), List.append_nil] at stored
  have width : (pending ++ [x]).length = capacity := by rw [← stored, length]
  have pushed : push sort leave b x =
      ⟨leave (sort (pending ++ [x])), 0, b.batches ++ [sort (pending ++ [x])]⟩ := by
    rw [push, stored, width, filled.count, if_pos exact]
  have batch : lastBatch sort capacity blank (full ++ (pending ++ [x])) = sort (pending ++ [x]) := by
    rw [lastBatch, List.length_append, width, if_neg (by omega), Nat.add_sub_cancel, List.drop_left]
  have rest : residue sort leave capacity blank (full ++ (pending ++ [x])) =
      leave (sort (pending ++ [x])) := by
    rw [residue, batch, List.length_append, width, if_neg (by omega)]
  rw [pushed]
  refine ⟨?_, by rw [List.length_nil]; omega, rfl, by rw [rest]; rfl, ?_, ?_⟩
  · rw [List.length_append, List.length_singleton, Nat.add_mul, filled.number, Nat.one_mul,
      List.length_append, width]
  · rw [List.flatten_append, List.flatten_singleton]
    exact filled.handed.append (perm _)
  · rw [batch, List.getLast?_append_of_ne_nil _ (by simp)]
    rfl

/-- One more item is pending, or completes a batch. -/
theorem Filled.push (perm : ∀ l, (sort l).Perm l) (keeps : ∀ l, (leave l).length = l.length)
    (filled : Filled sort leave capacity blank full pending b) (x : α) :
    Filled sort leave capacity blank full (pending ++ [x]) (Batching.push sort leave b x) ∨
      Filled sort leave capacity blank (full ++ (pending ++ [x])) [] (Batching.push sort leave b x) := by
  rcases Nat.lt_or_ge (pending.length + 1) capacity with more | full
  · exact Or.inl (filled.push_pending perm keeps more x)
  · have short := filled.short
    exact Or.inr (filled.push_full perm keeps (by omega) x)

theorem filled_fresh (positive : 0 < capacity) :
    Filled sort leave capacity blank [] [] (fresh capacity blank) := by
  have rest : residue sort leave capacity blank [] = List.replicate capacity blank := if_pos positive
  have batch : lastBatch sort capacity blank [] = List.replicate capacity blank := if_pos positive
  exact ⟨Nat.zero_mul capacity, positive, rfl, rest.symm, List.Perm.refl _, batch.symm⟩

/-- Full batches and pending items are determined by all items. -/
theorem Filled.split (filled : Filled sort leave capacity blank full pending b) :
    full = complete capacity (full ++ pending) ∧ pending = leftover capacity (full ++ pending) := by
  obtain ⟨batches, length⟩ := filled.whole
  have short := filled.short
  have boundary : (full ++ pending).length / capacity * capacity = full.length := by
    rw [List.length_append, length, Nat.mul_add_div (by omega), Nat.div_eq_of_lt short,
      Nat.add_zero, Nat.mul_comm]
  exact ⟨by rw [complete, boundary, List.take_left], by rw [leftover, boundary, List.drop_left]⟩

/-- After the full batches, exactly the pending items are missing. -/
theorem Filled.handed_iff {items : List α}
    (filled : Filled sort leave capacity blank (complete capacity items) (leftover capacity items) b)
    (extra : List α) :
    (b.batches.flatten ++ extra).Perm items ↔ extra.Perm (leftover capacity items) := by
  have whole : complete capacity items ++ leftover capacity items = items :=
    List.take_append_drop _ _
  constructor
  · intro all
    have both : (complete capacity items ++ extra).Perm
        (complete capacity items ++ leftover capacity items) := by
      rw [whole]
      exact (filled.handed.symm.append_right extra).trans all
    exact (List.perm_append_left_iff _).mp both
  · intro rest
    have both := filled.handed.append rest
    rwa [whole] at both

/-- What a step hands over and what it leaves pending is what was pending before
and what it added. -/
theorem Filled.handed_step {items added cells cells' : List α} {count count' : Nat}
    {batches new : List (List α)}
    (first : Filled sort leave capacity blank (complete capacity items) (leftover capacity items)
      ⟨cells, count, batches⟩)
    (second : Filled sort leave capacity blank (complete capacity (items ++ added))
      (leftover capacity (items ++ added)) ⟨cells', count', batches ++ new⟩) :
    (new.flatten ++ leftover capacity (items ++ added)).Perm (leftover capacity items ++ added) := by
  have whole : ∀ all : List α, complete capacity all ++ leftover capacity all = all :=
    fun all => List.take_append_drop _ _
  have after := second.handed.append_right (leftover capacity (items ++ added))
  rw [whole, List.flatten_append, List.append_assoc] at after
  have before := (first.handed.append_right (leftover capacity items)).append_right added
  rw [whole, List.append_assoc] at before
  exact (List.perm_append_left_iff _).mp (after.trans before.symm)

theorem filled_pushes (perm : ∀ l, (sort l).Perm l) (keeps : ∀ l, (leave l).length = l.length)
    (items : List α)
    (filled : Filled sort leave capacity blank full pending b) :
    Filled sort leave capacity blank (complete capacity (full ++ pending ++ items))
      (leftover capacity (full ++ pending ++ items)) (items.foldl (Batching.push sort leave) b) := by
  induction items generalizing b full pending with
  | nil =>
    rw [List.append_nil, ← filled.split.1, ← filled.split.2]
    exact filled
  | cons x rest ih =>
    rw [List.foldl_cons]
    rcases filled.push perm keeps x with next | next
    · simpa only [List.append_assoc, List.singleton_append, List.append_nil] using ih next
    · simpa only [List.append_assoc, List.singleton_append, List.append_nil] using ih next

theorem Filled.next (perm : ∀ l, (sort l).Perm l) (keeps : ∀ l, (leave l).length = l.length)
    {items : List α}
    (filled : Filled sort leave capacity blank (complete capacity items) (leftover capacity items) b)
    (x : α) :
    Filled sort leave capacity blank (complete capacity (items ++ [x]))
      (leftover capacity (items ++ [x])) (Batching.push sort leave b x) := by
  have whole : complete capacity items ++ leftover capacity items = items :=
    List.take_append_drop _ _
  simpa only [whole, List.foldl_cons, List.foldl_nil] using
    filled_pushes perm keeps [x] filled

/-- What a whole run of pushes leaves. -/
theorem filled_foldl (positive : 0 < capacity) (perm : ∀ l, (sort l).Perm l)
    (keeps : ∀ l, (leave l).length = l.length) (items : List α) :
    Filled sort leave capacity blank (complete capacity items) (leftover capacity items)
      (items.foldl (Batching.push sort leave) (fresh capacity blank)) :=
  filled_pushes perm keeps items (filled_fresh positive)

end Filling

section Sorting

/-- Sorting a list in with others keeps its items in front exactly when none of
them is above one of the others. -/
theorem take_sort_perm_iff {r : α → α → Prop} (antisymm : ∀ a b, r a b → r b a → a = b)
    {sort : List α → List α} (perm : ∀ l, (sort l).Perm l) (sorted : ∀ l, (sort l).Pairwise r)
    (front back : List α) :
    ((sort (front ++ back)).take front.length).Perm front ↔ ∀ x ∈ front, ∀ y ∈ back, r x y := by
  have all := perm (front ++ back)
  have whole := sorted (front ++ back)
  constructor
  · intro kept x hx y hy
    rw [← List.take_append_drop front.length (sort (front ++ back))] at whole all
    have others : ((sort (front ++ back)).drop front.length).Perm back :=
      (List.perm_append_left_iff front).mp ((kept.symm.append_right _).trans all)
    exact (List.pairwise_append.mp whole).2.2 x (kept.mem_iff.mpr hx) y (others.mem_iff.mpr hy)
  · intro below
    have split : sort (front ++ back) = sort front ++ sort back := by
      refine List.Perm.eq_of_pairwise (fun a b _ _ => antisymm a b) whole ?_ ?_
      · apply List.pairwise_append.mpr
        refine ⟨sorted front, sorted back, ?_⟩
        intro x hx y hy
        exact below x ((perm front).mem_iff.mp hx) y ((perm back).mem_iff.mp hy)
      · exact all.trans ((perm front).symm.append (perm back).symm)
    rw [split, List.take_left' (perm front).length_eq]
    exact perm front

/-- The same for the front of an array that is sorted up to some position. -/
theorem take_sort_front_perm_iff {r : α → α → Prop} (antisymm : ∀ a b, r a b → r b a → a = b)
    {sort : List α → List α} (perm : ∀ l, (sort l).Perm l) (sorted : ∀ l, (sort l).Pairwise r)
    (pending rest : List α) (position : Nat) :
    ((sort ((pending ++ rest).take position) ++ (pending ++ rest).drop position).take
        pending.length).Perm pending ↔
      ∀ x ∈ pending, ∀ y ∈ rest.take (position - pending.length), r x y := by
  rcases Nat.le_total position pending.length with inside | beyond
  · have none : rest.take (position - pending.length) = [] := by
      rw [Nat.sub_eq_zero_of_le inside, List.take_zero]
    have front : (sort (pending.take position) ++ (pending.drop position ++ rest)).take
        pending.length = sort (pending.take position) ++ pending.drop position := by
      rw [← List.append_assoc]
      apply List.take_left'
      rw [List.length_append, (perm _).length_eq, ← List.length_append, List.take_append_drop]
    have kept : (sort (pending.take position) ++ pending.drop position).Perm pending := by
      have both := (perm (pending.take position)).append_right (pending.drop position)
      rwa [List.take_append_drop] at both
    rw [List.take_append_of_le_length inside, List.drop_append_of_le_length inside, front, none]
    simp [kept]
  · have split : (pending ++ rest).take position =
        pending ++ rest.take (position - pending.length) := by
      rw [List.take_append, List.take_of_length_le beyond]
    rw [split, List.take_append_of_le_length]
    · exact take_sort_perm_iff antisymm perm sorted pending _
    · rw [(perm _).length_eq, List.length_append]
      omega

end Sorting

end Zeppelin.Batching
