import Mathlib.Logic.Basic

/-! Runs of a partial step function over a schedule of actions. A step that is
not enabled ends the run without a result, so a schedule with a result is a real
execution, and the schedules are exactly the interleavings. -/
namespace Zeppelin.Run

variable {S A : Type} (step : S → A → Option S)

def run (s : S) (actions : List A) : Option S := actions.foldlM step s

theorem run_cons (s : S) (a : A) (rest : List A) :
    run step s (a :: rest) = (step s a).bind (run step · rest) := List.foldlM_cons

theorem run_cons_some {s t : S} {a : A} {rest : List A} :
    run step s (a :: rest) = some t ↔ ∃ u, step s a = some u ∧ run step u rest = some t := by
  rw [run_cons, Option.bind_eq_some_iff]

variable {step}

/-- An initially true predicate kept by every step holds after every run. -/
theorem run_invariant {P : S → Prop} (preserves : ∀ {s a t}, P s → step s a = some t → P t)
    {s t : S} {actions : List A} (initial : P s) (done : run step s actions = some t) : P t := by
  induction actions generalizing s with
  | nil =>
    cases Option.some.inj done
    exact initial
  | cons a rest ih =>
    obtain ⟨u, first, others⟩ := (run_cons_some step).mp done
    exact ih (preserves initial first) others

section Along

variable (step)

/-- The predicate holds in every state along the run. -/
def Always (P : S → Prop) (s : S) (actions : List A) : Prop :=
  ∀ before after t, actions = before ++ after → run step s before = some t → P t

/-- The condition holds of every action, in the state before it. -/
def EachStep (Q : S → A → Prop) (s : S) (actions : List A) : Prop :=
  ∀ before a after t, actions = before ++ a :: after → run step s before = some t → Q t a

variable {step}

theorem always_cons {P : S → Prop} {s u : S} {a : A} {rest : List A}
    (first : step s a = some u) :
    Always step P s (a :: rest) ↔ P s ∧ Always step P u rest := by
  constructor
  · intro always
    refine ⟨always [] _ s rfl rfl, ?_⟩
    intro before after t split reached
    apply always (a :: before) after t (congrArg (a :: ·) split)
    rw [run_cons, first, Option.bind_some, reached]
  · rintro ⟨initial, always⟩ before after t split reached
    cases before with
    | nil => exact Option.some.inj reached ▸ initial
    | cons b before =>
      obtain ⟨rfl, rfl⟩ := List.cons_eq_cons.mp split
      rw [run_cons, first, Option.bind_some] at reached
      exact always before after t rfl reached

theorem eachStep_cons {Q : S → A → Prop} {s u : S} {a : A} {rest : List A}
    (first : step s a = some u) :
    EachStep step Q s (a :: rest) ↔ Q s a ∧ EachStep step Q u rest := by
  constructor
  · intro each
    refine ⟨each [] a rest s rfl rfl, ?_⟩
    intro before b after t split reached
    apply each (a :: before) b after t (congrArg (a :: ·) split)
    rw [run_cons, first, Option.bind_some, reached]
  · rintro ⟨initial, each⟩ before b after t split reached
    cases before with
    | nil =>
      obtain ⟨rfl, -⟩ := List.cons_eq_cons.mp split
      exact Option.some.inj reached ▸ initial
    | cons c before =>
      obtain ⟨rfl, rfl⟩ := List.cons_eq_cons.mp split
      rw [run_cons, first, Option.bind_some] at reached
      exact each before b after t rfl reached

/-- A step that is not enabled ends the run. -/
theorem eachStep_cons_none {Q : S → A → Prop} {s : S} {a : A} {rest : List A}
    (stuck : step s a = none) : EachStep step Q s (a :: rest) ↔ Q s a := by
  constructor
  · exact fun each => each [] a rest s rfl rfl
  · intro here before b after t split reached
    cases before with
    | nil =>
      obtain ⟨rfl, -⟩ := List.cons_eq_cons.mp split
      exact Option.some.inj reached ▸ here
    | cons c before =>
      obtain ⟨rfl, rfl⟩ := List.cons_eq_cons.mp split
      rw [run_cons, stuck] at reached
      cases reached

instance decidableEachStep {Q : S → A → Prop} [∀ s a, Decidable (Q s a)] :
    (s : S) → (actions : List A) → Decidable (EachStep step Q s actions)
  | s, [] => .isTrue fun before a after t split => by simp at split
  | s, a :: rest =>
    match first : step s a with
    | none => decidable_of_iff _ (eachStep_cons_none first).symm
    | some u =>
      have := decidableEachStep (Q := Q) u rest
      decidable_of_iff _ (eachStep_cons first).symm

/-- When an invariant implies a property and is kept by the steps that meet a
condition, the property holds along every run of such steps. -/
theorem always_of_eachStep {I P : S → Prop} {Q : S → A → Prop} (sound : ∀ {s}, I s → P s)
    (keeps : ∀ {s a t}, I s → Q s a → step s a = some t → I t) {s : S} {actions : List A}
    (initial : I s) (each : EachStep step Q s actions) : Always step P s actions := by
  rintro before after t rfl reached
  induction before generalizing s with
  | nil => exact Option.some.inj reached ▸ sound initial
  | cons a before ih =>
    obtain ⟨u, first, others⟩ := (run_cons_some step).mp reached
    obtain ⟨good, each⟩ := (eachStep_cons first).mp each
    exact ih (keeps initial good first) each others

/-- If moreover every other step breaks the property, it holds along a run
exactly when all steps meet the condition. -/
theorem always_iff_eachStep {I P : S → Prop} {Q : S → A → Prop} (sound : ∀ {s}, I s → P s)
    (keeps : ∀ {s a t}, I s → Q s a → step s a = some t → I t)
    (breaks : ∀ {s a t}, I s → step s a = some t → P t → Q s a) {s t : S} {actions : List A}
    (initial : I s) (done : run step s actions = some t) :
    Always step P s actions ↔ EachStep step Q s actions := by
  refine ⟨fun always => ?_, always_of_eachStep sound keeps initial⟩
  induction actions generalizing s with
  | nil =>
    intro before a after t split _
    simp at split
  | cons a rest ih =>
    obtain ⟨u, first, others⟩ := (run_cons_some step).mp done
    obtain ⟨-, always⟩ := (always_cons first).mp always
    have good := breaks initial first (always [] rest u rfl rfl)
    exact (eachStep_cons first).mpr ⟨good, ih (keeps initial good first) others always⟩

end Along

end Zeppelin.Run
