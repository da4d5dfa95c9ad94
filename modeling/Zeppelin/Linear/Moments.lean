import Mathlib.LinearAlgebra.Finsupp.LinearCombination
import Mathlib.Data.Int.Interval
import Mathlib.Tactic.Ring

/-! Linear measurements of a vector given by a history of point updates. A
measurement adds up `delta * weight` over the history; it depends on the history
only through the net vector, which is what makes a linear summary insensitive to
order and cancellation. Index types and weights are arbitrary. -/
namespace Zeppelin.Linear

variable {ι : Type} [DecidableEq ι]

/-- The net value at `k` of a history of `(index, delta)` updates. -/
def entry (history : List (ι × ℤ)) (k : ι) : ℤ :=
  ((history.filter fun e => e.1 = k).map Prod.snd).sum

def weigh (weight : ι → ℤ) (history : List (ι × ℤ)) : ℤ :=
  (history.map fun e => e.2 * weight e.1).sum

noncomputable def net (history : List (ι × ℤ)) : ι →₀ ℤ :=
  (history.map fun e => Finsupp.single e.1 e.2).sum

theorem net_apply (history : List (ι × ℤ)) (k : ι) : net history k = entry history k := by
  induction history with
  | nil => rfl
  | cons e rest ih =>
    simp only [net, entry, List.map_cons, List.sum_cons, Finsupp.add_apply] at ih ⊢
    rw [ih, Finsupp.single_apply]
    by_cases same : e.1 = k
    · simp only [same, if_true, List.filter_cons, decide_true, List.map_cons, List.sum_cons]
    · simp only [same, if_false, List.filter_cons, decide_false, zero_add, Bool.false_eq_true]

omit [DecidableEq ι] in
theorem weigh_eq_linearCombination (weight : ι → ℤ) (history : List (ι × ℤ)) :
    weigh weight history = Finsupp.linearCombination ℤ weight (net history) := by
  induction history with
  | nil => simp [weigh, net]
  | cons e rest ih =>
    simp only [weigh, net, List.map_cons, List.sum_cons, map_add,
      Finsupp.linearCombination_single, smul_eq_mul] at ih ⊢
    rw [ih]

/-- Histories with the same net vector have the same measurements. -/
theorem weigh_congr (weight : ι → ℤ) {first second : List (ι × ℤ)}
    (same : ∀ k, entry first k = entry second k) : weigh weight first = weigh weight second := by
  have nets : net first = net second := by
    ext k
    rw [net_apply, net_apply, same]
  rw [weigh_eq_linearCombination, weigh_eq_linearCombination, nets]

/-- A measurement is the weighted sum of the net entries over any finite set
outside which the net vector vanishes. -/
theorem weigh_eq_sum (weight : ι → ℤ) {history : List (ι × ℤ)} {s : Finset ι}
    (outside : ∀ k ∉ s, entry history k = 0) :
    weigh weight history = ∑ k ∈ s, entry history k * weight k := by
  rw [weigh_eq_linearCombination, Finsupp.linearCombination_apply]
  have inside : (net history).support ⊆ s := by
    intro k member
    by_contra missing
    exact (Finsupp.mem_support_iff.mp member) ((net_apply history k).trans (outside k missing))
  rw [Finsupp.sum_of_support_subset (net history) inside (fun k d => d • weight k)
    (fun k _ => zero_smul ℤ (weight k))]
  exact Finset.sum_congr rfl fun k _ => by rw [net_apply, smul_eq_mul]

/-- A history whose net vector vanishes away from `k` measures as one update. -/
theorem weigh_single (weight : ι → ℤ) {history : List (ι × ℤ)} {k : ι}
    (only : ∀ other, other ≠ k → entry history other = 0) :
    weigh weight history = entry history k * weight k := by
  have outside : ∀ other ∉ ({k} : Finset ι), entry history other = 0 := by
    intro other missing
    exact only other (by simpa using missing)
  rw [weigh_eq_sum weight outside, Finset.sum_singleton]

omit [DecidableEq ι] in
theorem weigh_weight_congr {first second : ι → ℤ} {history : List (ι × ℤ)}
    (same : ∀ e ∈ history, first e.1 = second e.1) : weigh first history = weigh second history := by
  apply congrArg List.sum
  apply List.map_congr_left
  intro e member
  rw [same e member]

omit [DecidableEq ι] in
theorem weigh_append (weight : ι → ℤ) (first second : List (ι × ℤ)) :
    weigh weight (first ++ second) = weigh weight first + weigh weight second := by
  simp only [weigh, List.map_append, List.sum_append]

omit [DecidableEq ι] in
theorem weigh_scale (weight : ι → ℤ) (factor : ℤ) (history : List (ι × ℤ)) :
    weigh weight (history.map fun e => (e.1, factor * e.2)) = factor * weigh weight history := by
  simp only [weigh, List.map_map, ← List.sum_map_mul_left, Function.comp_def, mul_assoc]

/-- Restricting a history to the indices of a set restricts its net vector. -/
theorem entry_filter (member : ι → Bool) (history : List (ι × ℤ)) (k : ι) :
    entry (history.filter fun e => member e.1) k = if member k then entry history k else 0 := by
  induction history with
  | nil => simp [entry]
  | cons e rest ih =>
    have split : ∀ h : List (ι × ℤ), entry (e :: h) k = (if e.1 = k then e.2 else 0) + entry h k := by
      intro h
      by_cases same : e.1 = k <;> simp [entry, same]
    rw [List.filter_cons]
    by_cases kept : member e.1 = true
    · rw [if_pos kept, split, split, ih]
      by_cases same : e.1 = k
      · subst same
        simp only [kept, if_true]
      · simp only [same, if_false, zero_add]
    · rw [if_neg kept, ih, split]
      by_cases same : e.1 = k
      · subst same
        rw [if_neg kept, if_neg kept]
      · simp only [same, if_false, zero_add]

/-- Indices that never occur have a zero entry. -/
theorem entry_eq_zero {history : List (ι × ℤ)} {k : ι} (absent : ∀ e ∈ history, e.1 ≠ k) :
    entry history k = 0 := by
  have none : (history.filter fun e => e.1 = k) = [] := by
    apply List.filter_eq_nil_iff.mpr
    intro e member
    simpa using absent e member
  rw [entry, none]
  rfl

end Zeppelin.Linear
