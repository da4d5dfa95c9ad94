import Mathlib.Algebra.Order.Ring.Nat
import Mathlib.Logic.Function.Iterate

/-! Loops whose termination is part of what is to be proved. A loop runs on fuel
and has no result when the fuel is spent or its body has none, so it terminates
when some fuel gives a result and diverges when none does. -/
namespace Zeppelin.Loop

variable {S : Type}

def whileLoop (guard : S → Bool) (body : S → Option S) : Nat → S → Option S
  | 0, _ => none
  | fuel + 1, s => if guard s then (body s).bind (whileLoop guard body fuel) else some s

section While

variable {guard : S → Bool} {body : S → Option S}

/-- What the body keeps holds wherever the loop ends. -/
theorem whileLoop_invariant {P : S → Prop}
    (keeps : ∀ s t, P s → guard s = true → body s = some t → P t)
    {fuel : Nat} {s t : S} (initial : P s) (ended : whileLoop guard body fuel s = some t) :
    P t ∧ guard t = false := by
  induction fuel generalizing s with
  | zero => cases ended
  | succ fuel ih =>
    rw [whileLoop] at ended
    split at ended
    next continues =>
      obtain ⟨u, first, others⟩ := Option.bind_eq_some_iff.mp ended
      exact ih (keeps s u initial continues first) others
    next stops =>
      cases ended
      exact ⟨initial, Bool.eq_false_iff.mpr stops⟩

/-- A body with a result that decreases a measure ends the loop. -/
theorem whileLoop_returns {P : S → Prop} (measure : S → Nat)
    (decreases : ∀ s, P s → guard s = true → ∃ t, body s = some t ∧ P t ∧ measure t < measure s)
    {fuel : Nat} {s : S} (initial : P s) (enough : measure s < fuel) :
    ∃ t, whileLoop guard body fuel s = some t := by
  induction fuel generalizing s with
  | zero => omega
  | succ fuel ih =>
    rw [whileLoop]
    split
    next continues =>
      obtain ⟨u, first, kept, less⟩ := decreases s initial continues
      obtain ⟨t, others⟩ := ih kept (by omega)
      exact ⟨t, by rw [first, Option.bind_some, others]⟩
    next => exact ⟨s, rfl⟩

/-- A body that keeps an invariant and decreases a measure takes the loop to a
state where the invariant holds and the guard does not. -/
theorem whileLoop_reaches {P : S → Prop} (measure : S → Nat)
    (decreases : ∀ s, P s → guard s = true → ∃ t, body s = some t ∧ P t ∧ measure t < measure s)
    {fuel : Nat} {s : S} (initial : P s) (enough : measure s < fuel) :
    ∃ t, whileLoop guard body fuel s = some t ∧ P t ∧ guard t = false ∧ measure t ≤ measure s := by
  obtain ⟨t, ended⟩ := whileLoop_returns measure decreases initial enough
  have kept := whileLoop_invariant (P := fun u => P u ∧ measure u ≤ measure s) ?_
    ⟨initial, Nat.le_refl _⟩ ended
  · exact ⟨t, ended, kept.1.1, kept.2, kept.1.2⟩
  · rintro u v ⟨holds, below⟩ continues done
    obtain ⟨w, done', kept, less⟩ := decreases u holds continues
    obtain rfl := Option.some.inj (done.symm.trans done')
    exact ⟨kept, by omega⟩

end While

/-- The body, followed by the increment of a counter that wraps at `2 ^ width`. -/
def counted (width : Nat) (body : S → Option S) (s : Nat × S) : Option (Nat × S) :=
  (body s.2).map fun t => ((s.1 + 1) % 2 ^ width, t)

/-- `for (T j = 0; j < bound; ++j) body`, with the counter at its end. -/
def countLoop (width bound : Nat) (body : S → Option S) (fuel : Nat) (s : S) : Option (Nat × S) :=
  whileLoop (fun s => s.1 < bound) (counted width body) fuel (0, s)

def forLoop (width bound : Nat) (body : S → Option S) (fuel : Nat) (s : S) : Option S :=
  (countLoop width bound body fuel s).map Prod.snd

section For

variable {width bound : Nat} {body : S → Option S}

/-- A counter that cannot reach its bound runs forever. -/
theorem forLoop_diverges (large : 2 ^ width ≤ bound) (fuel : Nat) (s : S) :
    forLoop width bound body fuel s = none := by
  rw [forLoop, Option.map_eq_none_iff, Option.eq_none_iff_forall_ne_some]
  intro t ended
  have below := whileLoop_invariant (P := fun s => s.1 < 2 ^ width) ?_ (Nat.two_pow_pos width) ended
  · have stops := of_decide_eq_false below.2
    have small := below.1
    omega
  · rintro ⟨j, s⟩ t - - done
    obtain ⟨u, -, rfl⟩ := Option.map_eq_some_iff.mp done
    exact Nat.mod_lt _ (Nat.two_pow_pos width)

variable {f : S → S}

/-- What is left of the loop when the counter has come some way. -/
theorem whileLoop_counted (total : ∀ s, body s = some (f s)) (small : bound < 2 ^ width)
    (left fuel : Nat) (s : S) (most : left ≤ bound) :
    whileLoop (fun s => s.1 < bound) (counted width body) fuel (bound - left, s) =
      if left < fuel then some (bound, f^[left] s) else none := by
  induction left generalizing fuel s with
  | zero =>
    cases fuel with
    | zero => rfl
    | succ fuel => simp [whileLoop]
  | succ left ih =>
    cases fuel with
    | zero => rfl
    | succ fuel =>
      have counter : (bound - (left + 1) + 1) % 2 ^ width = bound - left := by
        rw [Nat.mod_eq_of_lt (by omega)]
        omega
      have first : counted width body (bound - (left + 1), s) = some (bound - left, f s) := by
        rw [counted, total, Option.map_some, counter]
      rw [whileLoop, if_pos (decide_eq_true (show bound - (left + 1) < bound by omega)), first,
        Option.bind_some, ih fuel (f s) (by omega), Function.iterate_succ_apply]
      simp only [Nat.add_lt_add_iff_right]

/-- A counter that can reach its bound runs the body once for every number below it. -/
theorem countLoop_eq (total : ∀ s, body s = some (f s)) (small : bound < 2 ^ width)
    (fuel : Nat) (s : S) :
    countLoop width bound body fuel s = if bound < fuel then some (bound, f^[bound] s) else none := by
  have loop := whileLoop_counted total small bound fuel s (Nat.le_refl bound)
  rwa [Nat.sub_self] at loop

theorem forLoop_eq (total : ∀ s, body s = some (f s)) (small : bound < 2 ^ width)
    (fuel : Nat) (s : S) :
    forLoop width bound body fuel s = if bound < fuel then some (f^[bound] s) else none := by
  rw [forLoop, countLoop_eq total small]
  split
  · rfl
  · rfl

/-- A loop that is entered needs a result of its body. -/
theorem forLoop_stuck (stuck : ∀ s, body s = none) (positive : 0 < bound) (fuel : Nat) (s : S) :
    forLoop width bound body fuel s = none := by
  cases fuel with
  | zero => rfl
  | succ fuel => simp [forLoop, countLoop, whileLoop, counted, positive, stuck]

end For

end Zeppelin.Loop
