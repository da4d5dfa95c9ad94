import Mathlib.Algebra.BigOperators.Group.Finset.Piecewise
import Mathlib.Data.Fintype.Card
import Mathlib.Logic.Function.Basic

/-! How many threads are at a place. A step moves one thread, and changes the
number by what that thread leaves and enters. -/
namespace Zeppelin.Threads

variable {ι P : Type} [Fintype ι] (place : P → Prop) [DecidablePred place]

def count (pc : ι → P) : Nat := (Finset.univ.filter fun i => place (pc i)).card

variable {place}

theorem count_le (pc : ι → P) : count place pc ≤ Fintype.card ι :=
  (Finset.card_filter_le _ _).trans_eq Finset.card_univ

theorem count_eq_zero {pc : ι → P} : count place pc = 0 ↔ ∀ i, ¬place (pc i) := by
  rw [count, Finset.card_eq_zero, Finset.filter_eq_empty_iff]
  exact ⟨fun none i => none (Finset.mem_univ i), fun none i _ => none i⟩

theorem count_pos {pc : ι → P} {i : ι} (here : place (pc i)) : 0 < count place pc :=
  Finset.card_pos.mpr ⟨i, Finset.mem_filter.mpr ⟨Finset.mem_univ i, here⟩⟩

/-- One thread alone at the place. -/
theorem eq_of_count_eq_one {pc : ι → P} {i j : ι} (one : count place pc = 1) (here : place (pc i))
    (there : place (pc j)) : i = j := by
  obtain ⟨k, only⟩ := Finset.card_eq_one.mp one
  have at' : ∀ l, place (pc l) → l = k := fun l placed =>
    Finset.mem_singleton.mp (only ▸ Finset.mem_filter.mpr ⟨Finset.mem_univ l, placed⟩)
  rw [at' i here, at' j there]

variable [DecidableEq ι]

variable (place) in
theorem count_update (pc : ι → P) (i : ι) (p : P) :
    count place (Function.update pc i p) + (if place (pc i) then 1 else 0) =
      count place pc + if place p then 1 else 0 := by
  have split : ∀ pc : ι → P, count place pc =
      (if place (pc i) then 1 else 0) + ∑ j ∈ Finset.univ.erase i, if place (pc j) then 1 else 0 := by
    intro pc
    rw [count, Finset.card_filter]
    exact (Finset.add_sum_erase _ (fun j => if place (pc j) then 1 else 0)
      (Finset.mem_univ i)).symm
  have others : ∑ j ∈ Finset.univ.erase i, (if place (Function.update pc i p j) then 1 else 0) =
      ∑ j ∈ Finset.univ.erase i, if place (pc j) then 1 else 0 := by
    apply Finset.sum_congr rfl
    intro j member
    rw [Function.update_of_ne (Finset.ne_of_mem_erase member)]
  rw [split (Function.update pc i p), split pc, others, Function.update_self]
  omega

/-- A thread that neither leaves nor enters the place. -/
theorem count_update_same {pc : ι → P} {i : ι} {p : P} (same : place p ↔ place (pc i)) :
    count place (Function.update pc i p) = count place pc := by
  have moved := count_update place pc i p
  by_cases here : place (pc i)
  · rw [if_pos here, if_pos (same.mpr here)] at moved
    omega
  · rw [if_neg here, if_neg (same.not.mpr here)] at moved
    omega

theorem count_update_enter {pc : ι → P} {i : ι} {p : P} (before : ¬place (pc i)) (after : place p) :
    count place (Function.update pc i p) = count place pc + 1 := by
  have moved := count_update place pc i p
  rwa [if_neg before, if_pos after] at moved

theorem count_update_leave {pc : ι → P} {i : ι} {p : P} (before : place (pc i)) (after : ¬place p) :
    count place (Function.update pc i p) + 1 = count place pc := by
  have moved := count_update place pc i p
  rwa [if_pos before, if_neg after] at moved

end Zeppelin.Threads
