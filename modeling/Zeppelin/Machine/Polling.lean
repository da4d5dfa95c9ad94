import Mathlib.Data.List.Basic
import Zeppelin.Machine.Run

/-! A loop that is interrupted at intervals. Before each item a counter is compared
with the interval: once it has reached it the loop is polled and the counter
starts over, else the counter goes up. The counter does not go up in the
iteration of a poll, so the period is one more than the interval. -/
namespace Zeppelin.Polling

variable {S A : Type}

structure State (S : Type) where
  inner : S
  count : Nat
  consumed : Nat
  /-- The number of items consumed before each poll. -/
  polls : List Nat

def start (s : S) : State S := ⟨s, 0, 0, []⟩

def poll (interval : Nat) (s : State S) : State S :=
  if interval ≤ s.count then { s with count := 0, polls := s.polls ++ [s.consumed] }
  else { s with count := s.count + 1 }

def step (interval : Nat) (advance : S → A → Option S) (s : State S) (a : A) : Option (State S) :=
  (advance s.inner a).map fun inner => { poll interval s with inner, consumed := s.consumed + 1 }

/-- The counters after `n` items. -/
structure After (interval n : Nat) (s : State S) : Prop where
  consumed : s.consumed = n
  count : s.count = n % (interval + 1)
  polls : s.polls = (List.range (n / (interval + 1))).map fun k => (k + 1) * (interval + 1) - 1

/-- Where poll `k`, counted from 0, comes in a run over `n` items. -/
def pollAt (interval n k : Nat) : Option Nat :=
  if (k + 1) * (interval + 1) ≤ n then some ((k + 1) * (interval + 1) - 1) else none

section Counting

variable {interval n : Nat} {advance : S → A → Option S} {s t : State S} {a : A}

/-- A poll is due before the item that completes a period. -/
theorem After.due_iff (after : After interval n s) :
    interval ≤ s.count ↔ (n + 1) % (interval + 1) = 0 := by
  have below : n % (interval + 1) < interval + 1 := Nat.mod_lt n (Nat.succ_pos interval)
  have next := Nat.succ_mod_succ_eq_zero_iff (a := n) (b := interval)
  rw [after.count, next]
  omega

theorem After.next (after : After interval n s) (done : step interval advance s a = some t) :
    After interval (n + 1) t ∧ advance s.inner a = some t.inner := by
  obtain ⟨inner, advanced, rfl⟩ := Option.map_eq_some_iff.mp done
  refine ⟨?_, advanced⟩
  have consumed := after.consumed
  by_cases due : interval ≤ s.count
  · have period := after.due_iff.mp due
    have whole := Nat.div_add_mod (n + 1) (interval + 1)
    have quotient : (n + 1) / (interval + 1) = n / (interval + 1) + 1 :=
      Nat.succ_div_of_mod_eq_zero period
    rw [poll, if_pos due]
    refine ⟨by rw [consumed], period.symm, ?_⟩
    rw [period, quotient, Nat.add_zero, Nat.mul_comm] at whole
    rw [quotient, List.range_succ, List.map_append, List.map_singleton, ← after.polls, whole, consumed,
      Nat.add_sub_cancel]
  · have short := mt after.due_iff.mpr due
    have quotient : (n + 1) / (interval + 1) = n / (interval + 1) := Nat.succ_div_of_mod_ne_zero short
    have remainder : (n + 1) % (interval + 1) = n % (interval + 1) + 1 := by
      have whole := Nat.div_add_mod (n + 1) (interval + 1)
      have before := Nat.div_add_mod n (interval + 1)
      rw [quotient] at whole
      omega
    rw [poll, if_neg due]
    exact ⟨by rw [consumed], by rw [remainder, after.count], by rw [quotient, after.polls]⟩

theorem After.getElem?_polls (after : After interval n s) (k : Nat) :
    s.polls[k]? = pollAt interval n k := by
  have reached : k < n / (interval + 1) ↔ (k + 1) * (interval + 1) ≤ n :=
    Nat.le_div_iff_mul_le (Nat.succ_pos interval)
  rw [after.polls, List.getElem?_map, pollAt]
  split
  next whole => rw [List.getElem?_range (reached.mpr whole), Option.map_some]
  next short =>
    rw [List.getElem?_eq_none (by rw [List.length_range]; exact Nat.le_of_not_lt (mt reached.mp short)),
      Option.map_none]

theorem start_after (interval : Nat) (s : S) : After interval 0 (start s) :=
  ⟨rfl, (Nat.zero_mod _).symm, by rw [Nat.zero_div]; rfl⟩

/-- A whole run counts its items and does to the inner state what it does without polls. -/
theorem After.run (after : After interval n s) {actions : List A}
    (done : Run.run (step interval advance) s actions = some t) :
    After interval (n + actions.length) t ∧ Run.run advance s.inner actions = some t.inner := by
  induction actions generalizing n s with
  | nil =>
    cases done
    exact ⟨after, rfl⟩
  | cons a rest ih =>
    obtain ⟨u, first, others⟩ := (Run.run_cons_some _).mp done
    obtain ⟨next, advanced⟩ := after.next first
    obtain ⟨last, inner⟩ := ih next others
    refine ⟨?_, (Run.run_cons_some _).mpr ⟨_, advanced, inner⟩⟩
    rwa [List.length_cons, ← Nat.add_assoc, Nat.add_right_comm]

theorem run_defined (interval : Nat) {u : S} {actions : List A}
    (done : Run.run advance s.inner actions = some u) :
    ∃ t, Run.run (step interval advance) s actions = some t ∧ t.inner = u := by
  induction actions generalizing s with
  | nil => exact ⟨s, rfl, Option.some.inj done⟩
  | cons a rest ih =>
    obtain ⟨v, first, others⟩ := (Run.run_cons_some _).mp done
    obtain ⟨t, ended, inner⟩ :=
      ih (s := { poll interval s with inner := v, consumed := s.consumed + 1 }) others
    exact ⟨t, (Run.run_cons_some _).mpr ⟨_, by rw [step, first, Option.map_some], ended⟩, inner⟩

/-- Polling does not change what the loop does, and keeps its counters. -/
theorem run_start (interval : Nat) {s u : S} {actions : List A}
    (done : Run.run advance s actions = some u) :
    ∃ t, Run.run (step interval advance) (start s) actions = some t ∧ t.inner = u ∧
      After interval actions.length t := by
  obtain ⟨t, ended, inner⟩ := run_defined (s := start s) interval done
  have after := ((start_after interval s).run ended).1
  rw [Nat.zero_add] at after
  exact ⟨t, ended, inner, after⟩

end Counting

/-- What holds at every poll holds of the inner runs that end where a poll is due. -/
theorem eachStep_iff {interval : Nat} {advance : S → A → Option S} {s : S} {actions : List A}
    {Q : Nat → S → Prop} :
    Run.EachStep (step interval advance) (fun p _ => interval ≤ p.count → Q p.consumed p.inner) (start s)
        actions ↔
      ∀ i t, i < actions.length → (i + 1) % (interval + 1) = 0 →
        Run.run advance s (actions.take i) = some t → Q i t := by
  constructor
  · intro each i t below period reached
    obtain ⟨p, ended, rfl, after⟩ := run_start interval reached
    rw [List.length_take, Nat.min_eq_left (Nat.le_of_lt below)] at after
    have split : actions = actions.take i ++ actions[i] :: actions.drop (i + 1) := by
      rw [← List.drop_eq_getElem_cons below, List.take_append_drop]
    have polled := each _ _ _ p split ended (after.due_iff.mpr period)
    rwa [after.consumed] at polled
  · intro polled before a after p split reached due
    obtain ⟨counted, inner⟩ := (start_after interval s).run reached
    rw [Nat.zero_add] at counted
    rw [counted.consumed]
    apply polled _ _ _ (counted.due_iff.mp due)
    · rwa [split, List.take_left]
    · rw [split, List.length_append, List.length_cons]
      omega

end Zeppelin.Polling
