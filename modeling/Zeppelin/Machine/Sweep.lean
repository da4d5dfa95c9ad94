import Mathlib.Data.List.Basic
import Mathlib.Tactic.Ring
import Zeppelin.Machine.Run

/-! Nested loops over a flattened grid that rewrite one cell per iteration. The
loops are folds over the cells of a list stored row by row; the results say what
every cell holds afterwards, so that a client never unfolds the loops again. -/
namespace Zeppelin.Sweep

variable {α : Type}

/-- One row: the inner loop over `j` rewrites the cell at `base + j`. -/
def row (cell : Nat → α → α) (base cols : Nat) (cells : List α) : List α :=
  (List.range cols).foldl (fun cells j => cells.modify (base + j) (cell j)) cells

/-- The outer loop over `i`, row `i` starting at `i * cols`. -/
def grid (cell : Nat → Nat → α → α) (rows cols : Nat) (cells : List α) : List α :=
  (List.range rows).foldl (fun cells i => row (cell i) (i * cols) cols cells) cells

theorem row_succ (cell : Nat → α → α) (base cols : Nat) (cells : List α) :
    row cell base (cols + 1) cells = (row cell base cols cells).modify (base + cols) (cell cols) := by
  simp only [row, List.range_succ, List.foldl_append, List.foldl_cons, List.foldl_nil]

theorem grid_succ (cell : Nat → Nat → α → α) (rows cols : Nat) (cells : List α) :
    grid cell (rows + 1) cols cells = row (cell rows) (rows * cols) cols (grid cell rows cols cells) := by
  simp only [grid, List.range_succ, List.foldl_append, List.foldl_cons, List.foldl_nil]

theorem row_get (cell : Nat → α → α) (base cols : Nat) (cells : List α) (k : Nat) :
    (row cell base cols cells)[k]? =
      if base ≤ k ∧ k < base + cols then cells[k]?.map (cell (k - base)) else cells[k]? := by
  induction cols with
  | zero =>
    have : ¬(base ≤ k ∧ k < base + 0) := by omega
    simp only [row, List.range_zero, List.foldl_nil, if_neg this]
  | succ cols ih =>
    rw [row_succ]
    by_cases last : k = base + cols
    · subst last
      have before : ¬(base ≤ base + cols ∧ base + cols < base + cols) := by omega
      have within : base ≤ base + cols ∧ base + cols < base + (cols + 1) := by omega
      rw [List.getElem?_modify_eq, ih, if_neg before, if_pos within, Nat.add_sub_cancel_left]
      rfl
    · rw [List.getElem?_modify_ne _ _ (Ne.symm last), ih]
      by_cases inside : base ≤ k ∧ k < base + cols
      · rw [if_pos inside, if_pos (by omega)]
      · rw [if_neg inside, if_neg (by omega)]

/-- Position `k` of the flattened grid is cell `(k / cols, k % cols)` and is
rewritten exactly once. -/
theorem grid_get (cell : Nat → Nat → α → α) (rows cols : Nat) (cells : List α) (k : Nat) :
    (grid cell rows cols cells)[k]? =
      if k < rows * cols then cells[k]?.map (cell (k / cols) (k % cols)) else cells[k]? := by
  induction rows with
  | zero => simp [grid]
  | succ rows ih =>
    rw [grid_succ, row_get, ih, Nat.succ_mul]
    by_cases earlier : k < rows * cols
    · rw [if_neg (by omega), if_pos earlier, if_pos (by omega)]
    · by_cases inside : k < rows * cols + cols
      · have quotient : k / cols = rows := by
          apply Nat.div_eq_of_lt_le
          · omega
          · rw [Nat.succ_mul]; omega
        have remainder : k % cols = k - rows * cols := by
          rw [Nat.mod_def, quotient, Nat.mul_comm]
        rw [if_pos (by omega), if_neg earlier, if_pos inside, quotient, remainder]
      · rw [if_neg (by omega), if_neg earlier, if_neg inside]

theorem row_length (cell : Nat → α → α) (base cols : Nat) (cells : List α) :
    (row cell base cols cells).length = cells.length := by
  induction cols with
  | zero => rfl
  | succ cols ih => rw [row_succ, List.length_modify, ih]

theorem grid_length (cell : Nat → Nat → α → α) (rows cols : Nat) (cells : List α) :
    (grid cell rows cols cells).length = cells.length := by
  induction rows with
  | zero => rfl
  | succ rows ih => rw [grid_succ, row_length, ih]

/-- The content of cell `(i, j)` after a sweep. -/
theorem grid_getD (cell : Nat → Nat → α → α) {rows cols : Nat} {cells : List α}
    (size : cells.length = rows * cols) {i j : Nat} (hi : i < rows) (hj : j < cols) (d : α) :
    (grid cell rows cols cells).getD (i * cols + j) d = cell i j (cells.getD (i * cols + j) d) := by
  have inside : i * cols + j < rows * cols :=
    Nat.lt_of_lt_of_le (Nat.add_lt_add_left hj _)
      ((Nat.succ_mul i cols).symm.trans_le (Nat.mul_le_mul_right _ hi))
  have quotient : (i * cols + j) / cols = i := by
    rw [Nat.mul_comm, Nat.mul_add_div (by omega), Nat.div_eq_of_lt hj, Nat.add_zero]
  have remainder : (i * cols + j) % cols = j := by
    rw [Nat.mul_comm, Nat.mul_add_mod, Nat.mod_eq_of_lt hj]
  rw [List.getD_eq_getElem?_getD, List.getD_eq_getElem?_getD, grid_get, if_pos inside, quotient,
    remainder, List.getElem?_eq_getElem (by omega), Option.map_some, Option.getD_some,
    Option.getD_some]

theorem grid_forall {cell : Nat → Nat → α → α} {P : α → Prop}
    (keeps : ∀ i j x, P x → P (cell i j x)) {rows cols : Nat} {cells : List α}
    (initial : ∀ x ∈ cells, P x) : ∀ x ∈ grid cell rows cols cells, P x := by
  intro x member
  obtain ⟨k, found⟩ := List.mem_iff_getElem?.mp member
  rw [grid_get] at found
  split at found
  · obtain ⟨old, present, rfl⟩ := Option.map_eq_some_iff.mp found
    exact keeps _ _ old (initial old (List.mem_of_getElem? present))
  · exact initial x (List.mem_of_getElem? found)

/-- A fallible loop none of whose steps fails is the total loop. -/
theorem foldlM_eq_some {β : Type} {step : β → α → Option β} {total : β → α → β} {items : List α}
    (defined : ∀ x ∈ items, ∀ b, step b x = some (total b x)) (b : β) :
    items.foldlM step b = some (items.foldl total b) := by
  induction items generalizing b with
  | nil => rfl
  | cons x rest ih =>
    rw [List.foldlM_cons, defined x (by simp), Option.bind_eq_bind, Option.bind_some]
    exact ih (fun y hy => defined y (by simp [hy])) (total b x)

/-- A fallible rewrite of one cell; a position outside the list fails. -/
def modify? (cells : List α) (k : Nat) (cell : α → Option α) : Option (List α) := do
  let old ← cells[k]?
  let new ← cell old
  pure (cells.set k new)

def row? (cell : Nat → α → Option α) (base cols : Nat) (cells : List α) : Option (List α) :=
  (List.range cols).foldlM (fun cells j => modify? cells (base + j) (cell j)) cells

def grid? (cell : Nat → Nat → α → Option α) (rows cols : Nat) (cells : List α) :
    Option (List α) :=
  (List.range rows).foldlM (fun cells i => row? (cell i) (i * cols) cols cells) cells

theorem modify?_length {cells new : List α} {k : Nat} {cell : α → Option α}
    (done : modify? cells k cell = some new) : new.length = cells.length := by
  simp only [modify?, Option.bind_eq_bind, Option.bind_eq_some_iff, Option.pure_def,
    Option.some.injEq] at done
  obtain ⟨old, _, value, _, rfl⟩ := done
  exact List.length_set

theorem modify?_mem {cells new : List α} {k : Nat} {cell : α → Option α}
    (done : modify? cells k cell = some new) {x : α} (member : x ∈ new) :
    x ∈ cells ∨ ∃ old ∈ cells, cell old = some x := by
  simp only [modify?, Option.bind_eq_bind, Option.bind_eq_some_iff, Option.pure_def,
    Option.some.injEq] at done
  obtain ⟨old, found, value, computed, rfl⟩ := done
  rcases List.mem_or_eq_of_mem_set member with kept | rfl
  · exact Or.inl kept
  · exact Or.inr ⟨old, List.mem_of_getElem? found, computed⟩

theorem grid?_length {cell : Nat → Nat → α → Option α} {rows cols : Nat} {cells new : List α}
    (done : grid? cell rows cols cells = some new) : new.length = cells.length := by
  apply Run.run_invariant (P := fun new => new.length = cells.length) _ rfl done
  intro before i after initial inner
  apply Run.run_invariant (P := fun new => new.length = cells.length) _ initial inner
  intro before j after initial changed
  exact (modify?_length changed).trans initial

/-- A predicate kept by every cell holds of every cell afterwards. -/
theorem grid?_forall {cell : Nat → Nat → α → Option α} {P : α → Prop}
    (keeps : ∀ {i j x y}, P x → cell i j x = some y → P y) {rows cols : Nat} {cells new : List α}
    (initial : ∀ x ∈ cells, P x) (done : grid? cell rows cols cells = some new) :
    ∀ x ∈ new, P x := by
  apply Run.run_invariant (P := fun new : List α => ∀ x ∈ new, P x) _ initial done
  intro before i after initial inner
  apply Run.run_invariant (P := fun new : List α => ∀ x ∈ new, P x) _ initial inner
  intro before j after initial changed x member
  rcases modify?_mem changed member with kept | ⟨old, present, computed⟩
  · exact initial x kept
  · exact keeps (initial old present) computed

theorem modify?_some {cells : List α} {k : Nat} {cell : α → Option α} {total : α → α}
    (within : k < cells.length) (defined : ∀ x, cell x = some (total x)) :
    modify? cells k cell = some (cells.modify k total) := by
  simp only [modify?, List.getElem?_eq_getElem within, Option.bind_eq_bind, Option.bind_some,
    defined, Option.pure_def, Option.some.injEq]
  apply List.ext_getElem?
  intro j
  by_cases same : k = j
  · subst same
    simp [within]
  · rw [List.getElem?_modify_ne _ _ same, List.getElem?_set_ne same]

theorem row?_some {cell : Nat → α → Option α} {total : Nat → α → α} {base cols : Nat}
    {cells : List α} (within : base + cols ≤ cells.length)
    (defined : ∀ j < cols, ∀ x, cell j x = some (total j x)) :
    row? cell base cols cells = some (row total base cols cells) := by
  induction cols with
  | zero => rfl
  | succ cols ih =>
    have earlier := ih (by omega) (fun j hj => defined j (by omega))
    have last : base + cols < (row total base cols cells).length := by
      rw [row_length]; omega
    simp only [row?] at earlier
    simp only [row?, List.range_succ, List.foldlM_append, earlier, Option.bind_eq_bind,
      Option.bind_some, List.foldlM_cons, List.foldlM_nil,
      modify?_some last (defined cols (by omega)), Option.pure_def]
    rw [row_succ]

/-- A fallible sweep none of whose cells fails is the total sweep. -/
theorem grid?_some {cell : Nat → Nat → α → Option α} {total : Nat → Nat → α → α}
    {rows cols : Nat} {cells : List α} (within : rows * cols ≤ cells.length)
    (defined : ∀ i < rows, ∀ j < cols, ∀ x, cell i j x = some (total i j x)) :
    grid? cell rows cols cells = some (grid total rows cols cells) := by
  induction rows with
  | zero => rfl
  | succ rows ih =>
    rw [Nat.succ_mul] at within
    have earlier := ih (by omega) (fun i hi => defined i (by omega))
    have last : rows * cols + cols ≤ (grid total rows cols cells).length := by
      rw [grid_length]; omega
    simp only [grid?] at earlier
    simp only [grid?, List.range_succ, List.foldlM_append, earlier, Option.bind_eq_bind,
      Option.bind_some, List.foldlM_cons, List.foldlM_nil,
      row?_some last (defined rows (by omega)), Option.pure_def]
    rw [grid_succ]

section Fallible

variable {β : Type} {f : α → Option β}

/-- A loop whose every iteration has a result collects the results. -/
theorem mapM_eq_some {g : α → β} {xs : List α} (each : ∀ x ∈ xs, f x = some (g x)) :
    xs.mapM f = some (xs.map g) := by
  induction xs with
  | nil => rfl
  | cons x rest ih =>
    rw [List.mapM_cons, each x List.mem_cons_self, ih fun y hy => each y (List.mem_cons_of_mem x hy)]
    rfl

/-- One iteration without a result leaves the loop without one. -/
theorem mapM_eq_none {xs : List α} {x : α} (listed : x ∈ xs) (fails : f x = none) :
    xs.mapM f = none := by
  induction xs with
  | nil => cases listed
  | cons y rest ih =>
    rw [List.mapM_cons]
    rcases List.mem_cons.mp listed with rfl | later
    · rw [fails]
      rfl
    · rw [ih later]
      cases f y <;> rfl

end Fallible

end Zeppelin.Sweep
