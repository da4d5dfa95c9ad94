import Zeppelin.Sketch.Addition

/-! The query-once discipline over pools of sketches. A program works on a pool
of sketches of one length and seed; `+` and `*` put their result into the pool
and the other operations change a sketch in place. Beside every sketch stands
whether it was queried, or computed from one that was. -/
namespace Zeppelin.Sketch

namespace AGMSketch

variable {B : Build}

/-- The search of a query never reports a repeated query. -/
theorem querySearch_ne_multipleQuery (s : AGMSketch B) (visited : List (Nat × Nat))
    (allBucketsZero : Bool) :
    s.querySearch visited allBucketsZero ≠ some (.error .multipleQuery) := by
  induction visited generalizing allBucketsZero with
  | nil =>
    rw [querySearch]
    cases allBucketsZero <;> decide
  | cons cell rest ih =>
    rw [querySearch]
    split
    · simp
    · simp
    · exact ih _

/-- A query throws `MultipleQueryException` exactly when the sketch is marked. -/
theorem query_multiple_iff (s : AGMSketch B) :
    s.queryOutcome = some (.error .multipleQuery) ↔ s.alreadyQuered = true := by
  rw [queryOutcome, query]
  cases marked : s.alreadyQuered with
  | true => simp
  | false => simpa using s.querySearch_ne_multipleQuery _ true

theorem add_mark {s t sum : AGMSketch B} (done : s.add t = some sum) :
    sum.alreadyQuered = false := by
  simp only [add, Option.dite_none_right_eq_some, Option.some.injEq] at done
  obtain ⟨-, rfl⟩ := done
  rfl

theorem addAssign_mark {s t sum : AGMSketch B} (done : s.addAssign t = some sum) :
    sum.alreadyQuered = (s.alreadyQuered || t.alreadyQuered) := by
  simp only [addAssign, Option.dite_none_right_eq_some, Option.some.injEq] at done
  obtain ⟨-, rfl⟩ := done
  rfl

/-- `+` and `+=` leave the same buckets, and the same mark exactly when neither
operand was queried. -/
theorem add_addAssign_agree {s t : AGMSketch B} (same : s.Compatible t) :
    ∃ sum assigned, s.add t = some sum ∧ s.addAssign t = some assigned ∧
      sum.buckets = assigned.buckets ∧
      (sum.alreadyQuered = assigned.alreadyQuered ↔
        s.alreadyQuered = false ∧ t.alreadyQuered = false) := by
  obtain ⟨sum, found, -, -, mark, merged⟩ := add_spec same
  obtain ⟨assigned, found', -, -, mark', merged'⟩ := addAssign_spec same
  refine ⟨sum, assigned, found, found', merged.trans merged'.symm, ?_⟩
  rw [mark, mark']
  cases s.alreadyQuered <;> cases t.alreadyQuered <;> decide

end AGMSketch

/-- A sketch of the pool. `derived` records that it was queried, or that its
value was computed from a sketch of which this was recorded. -/
structure Entry (B : Build) where
  sketch : AGMSketch B
  derived : Bool

inductive PoolOp where
  | update (target : Nat) (u : Update)
  | query (target : Nat)
  | add (left right : Nat)
  | addAssign (target right : Nat)
  | scale (source : Nat) (factor : Int64)

namespace PoolOp

open AGMSketch

variable {B : Build}

/-- One operation; `none` is a sketch that is not in the pool, a failed assertion
or a query that traps. -/
def step (pool : List (Entry B)) : PoolOp → Option (List (Entry B))
  | update target u => do
    let x ← pool[target]?
    pure (pool.set target ⟨x.sketch.update u, x.derived⟩)
  | query target => do
    let x ← pool[target]?
    let (queried, _) ← x.sketch.query
    pure (pool.set target ⟨queried, true⟩)
  | add left right => do
    let x ← pool[left]?
    let y ← pool[right]?
    let sum ← x.sketch.add y.sketch
    pure (pool ++ [⟨sum, x.derived || y.derived⟩])
  | addAssign target right => do
    let x ← pool[target]?
    let y ← pool[right]?
    let sum ← x.sketch.addAssign y.sketch
    pure (pool.set target ⟨sum, x.derived || y.derived⟩)
  | scale source factor => do
    let x ← pool[source]?
    pure (pool ++ [⟨x.sketch.scale factor, x.derived⟩])

/-- Every query of a derived sketch throws `MultipleQueryException`. -/
def Disciplined (pool : List (Entry B)) : Prop :=
  ∀ x ∈ pool, x.derived = true → x.sketch.queryOutcome = some (.error .multipleQuery)

/-- The operands of `+` and `*` are not marked; other operations are free. -/
def Unmarked (pool : List (Entry B)) : PoolOp → Prop
  | add left right => ∀ x, pool[left]? = some x ∨ pool[right]? = some x →
      x.sketch.alreadyQuered = false
  | scale source _ => ∀ x, pool[source]? = some x → x.sketch.alreadyQuered = false
  | _ => True

/-- The mark of every sketch is what was recorded of it. -/
def Recorded (pool : List (Entry B)) : Prop :=
  ∀ x ∈ pool, x.sketch.alreadyQuered = x.derived

/-- The entry an operation leaves: its mark, and what is recorded of it. -/
def Produces (pool : List (Entry B)) (z : Entry B) : PoolOp → Prop
  | update target _ => ∃ x, pool[target]? = some x ∧
      z.sketch.alreadyQuered = x.sketch.alreadyQuered ∧ z.derived = x.derived
  | query _ => z.sketch.alreadyQuered = true ∧ z.derived = true
  | add left right => ∃ x y, pool[left]? = some x ∧ pool[right]? = some y ∧
      z.sketch.alreadyQuered = false ∧ z.derived = (x.derived || y.derived)
  | addAssign target right => ∃ x y, pool[target]? = some x ∧ pool[right]? = some y ∧
      z.sketch.alreadyQuered = (x.sketch.alreadyQuered || y.sketch.alreadyQuered) ∧
      z.derived = (x.derived || y.derived)
  | scale source _ => ∃ x, pool[source]? = some x ∧
      z.sketch.alreadyQuered = false ∧ z.derived = x.derived

theorem mem_set_self {pool : List (Entry B)} {target : Nat} {x : Entry B}
    (found : pool[target]? = some x) (z : Entry B) :
    z ∈ pool.set target z ∧ ∀ w ∈ pool.set target z, w ∈ pool ∨ w = z :=
  ⟨List.mem_set (List.getElem?_eq_some_iff.mp found).1 z,
    fun _ member => List.mem_or_eq_of_mem_set member⟩

theorem mem_append_self (pool : List (Entry B)) (z : Entry B) :
    z ∈ pool ++ [z] ∧ ∀ w ∈ pool ++ [z], w ∈ pool ∨ w = z :=
  ⟨by simp, fun _ member => by simpa using member⟩

/-- One operation leaves one new entry and keeps others of the pool. -/
theorem step_spec {pool next : List (Entry B)} {op : PoolOp} (done : step pool op = some next) :
    ∃ z, Produces pool z op ∧ z ∈ next ∧ ∀ w ∈ next, w ∈ pool ∨ w = z := by
  cases op with
  | update target u =>
    simp only [step, Option.bind_eq_bind, Option.bind_eq_some_iff, Option.pure_def,
      Option.some.injEq] at done
    obtain ⟨x, found, rfl⟩ := done
    exact ⟨⟨x.sketch.update u, x.derived⟩, ⟨x, found, rfl, rfl⟩, mem_set_self found _⟩
  | query target =>
    simp only [step, Option.bind_eq_bind, Option.bind_eq_some_iff, Option.pure_def,
      Option.some.injEq] at done
    obtain ⟨x, found, ⟨queried, outcome⟩, marked, rfl⟩ := done
    exact ⟨_, ⟨(x.sketch.query_frame marked).2.2.1, rfl⟩, mem_set_self found _⟩
  | add left right =>
    simp only [step, Option.bind_eq_bind, Option.bind_eq_some_iff, Option.pure_def,
      Option.some.injEq] at done
    obtain ⟨x, found, y, found', sum, added, rfl⟩ := done
    exact ⟨_, ⟨x, y, found, found', add_mark added, rfl⟩, mem_append_self _ _⟩
  | addAssign target right =>
    simp only [step, Option.bind_eq_bind, Option.bind_eq_some_iff, Option.pure_def,
      Option.some.injEq] at done
    obtain ⟨x, found, y, found', sum, added, rfl⟩ := done
    exact ⟨_, ⟨x, y, found, found', addAssign_mark added, rfl⟩, mem_set_self found _⟩
  | scale source factor =>
    simp only [step, Option.bind_eq_bind, Option.bind_eq_some_iff, Option.pure_def,
      Option.some.injEq] at done
    obtain ⟨x, found, rfl⟩ := done
    exact ⟨⟨x.sketch.scale factor, x.derived⟩, ⟨x, found, rfl, rfl⟩, mem_append_self _ _⟩

/-- An entry produced from recorded marks by an operation on unmarked operands
has its recorded mark. -/
theorem produced_recorded {pool : List (Entry B)} {z : Entry B} {op : PoolOp}
    (recorded : Recorded pool) (clean : Unmarked pool op) (produced : Produces pool z op) :
    z.sketch.alreadyQuered = z.derived := by
  cases op with
  | update target u =>
    obtain ⟨x, found, mark, kept⟩ := produced
    rw [mark, kept, recorded x (List.mem_of_getElem? found)]
  | query target => rw [produced.1, produced.2]
  | add left right =>
    obtain ⟨x, y, found, found', mark, kept⟩ := produced
    rw [mark, kept, ← recorded x (List.mem_of_getElem? found),
      ← recorded y (List.mem_of_getElem? found'), clean x (Or.inl found), clean y (Or.inr found')]
    rfl
  | addAssign target right =>
    obtain ⟨x, y, found, found', mark, kept⟩ := produced
    rw [mark, kept, recorded x (List.mem_of_getElem? found),
      recorded y (List.mem_of_getElem? found')]
  | scale source factor =>
    obtain ⟨x, found, mark, kept⟩ := produced
    rw [mark, kept, ← recorded x (List.mem_of_getElem? found), clean x found]

theorem not_derived {z : Entry B} (mark : z.sketch.alreadyQuered = false)
    (marked : z.derived = true → z.sketch.alreadyQuered = true) : z.derived = false := by
  rw [← Bool.not_eq_true]
  intro derived
  exact Bool.false_ne_true (mark.symm.trans (marked derived))

/-- A marked operand of `+` or `*` leaves an entry that can be queried again. -/
theorem unmarked_of_produced {pool : List (Entry B)} {z : Entry B} {op : PoolOp}
    (recorded : Recorded pool) (produced : Produces pool z op)
    (marked : z.derived = true → z.sketch.alreadyQuered = true) : Unmarked pool op := by
  cases op with
  | update | query | addAssign => trivial
  | add left right =>
    obtain ⟨x, y, found, found', mark, kept⟩ := produced
    have none : z.derived = false := not_derived mark marked
    obtain ⟨left, right⟩ := Bool.or_eq_false_iff.mp (kept.symm.trans none)
    rintro w (same | same)
    · rw [Option.some.inj (same.symm.trans found), recorded x (List.mem_of_getElem? found), left]
    · rw [Option.some.inj (same.symm.trans found'), recorded y (List.mem_of_getElem? found'), right]
  | scale source factor =>
    obtain ⟨x, found, mark, kept⟩ := produced
    intro w same
    rw [Option.some.inj (same.symm.trans found), recorded x (List.mem_of_getElem? found), ← kept]
    exact not_derived mark marked

theorem recorded_disciplined {pool : List (Entry B)} (recorded : Recorded pool) :
    Disciplined pool := by
  intro x member derived
  exact x.sketch.query_multiple_iff.mpr ((recorded x member).trans derived)

theorem step_recorded {pool next : List (Entry B)} {op : PoolOp} (recorded : Recorded pool)
    (clean : Unmarked pool op) (done : step pool op = some next) : Recorded next := by
  obtain ⟨z, produced, -, others⟩ := step_spec done
  intro w member
  rcases others w member with kept | rfl
  · exact recorded w kept
  · exact produced_recorded recorded clean produced

theorem step_unmarked {pool next : List (Entry B)} {op : PoolOp} (recorded : Recorded pool)
    (done : step pool op = some next) (good : Disciplined next) : Unmarked pool op := by
  obtain ⟨z, produced, member, -⟩ := step_spec done
  apply unmarked_of_produced recorded produced
  intro derived
  exact z.sketch.query_multiple_iff.mp (good z member derived)

/-- Over every run on a pool, the query-once discipline holds in every state
exactly when no `+` and no `*` takes a marked operand. -/
theorem query_once_iff {pool final : List (Entry B)} {ops : List PoolOp}
    (recorded : Recorded pool) (done : Run.run step pool ops = some final) :
    (Run.Always step Disciplined pool ops ↔ Run.EachStep step Unmarked pool ops) ∧
    ∀ s t : AGMSketch B, s.n = t.n → s.seed = t.seed →
      ∃ sum assigned, s.add t = some sum ∧ s.addAssign t = some assigned ∧
        sum.buckets = assigned.buckets ∧
        (sum.alreadyQuered = assigned.alreadyQuered ↔
          s.alreadyQuered = false ∧ t.alreadyQuered = false) :=
  ⟨Run.always_iff_eachStep recorded_disciplined step_recorded step_unmarked recorded done,
    fun _ _ length seed =>
      AGMSketch.add_addAssign_agree (AGMSketch.compatible_of_eq length seed)⟩

/-- Two fresh sketches of one length and seed. -/
def samplePool : List (Entry (Build.sample .native)) :=
  [⟨new _ 2 0 (by decide), false⟩, ⟨new _ 2 0 (by decide), false⟩]

/-- A queried sketch merged with `+=` keeps the discipline. -/
theorem query_once_addAssign :
    Run.Always step Disciplined samplePool [.query 0, .addAssign 1 0, .query 1] := by
  have completes : (Run.run step samplePool [.query 0, .addAssign 1 0, .query 1]).isSome := by
    decide +kernel
  obtain ⟨final, done⟩ := Option.isSome_iff_exists.mp completes
  have recorded : Recorded samplePool := by
    intro x member
    simp only [samplePool, List.mem_cons, List.not_mem_nil, or_false] at member
    rcases member with rfl | rfl <;> rfl
  apply (query_once_iff recorded done).1.mpr
  intro before op after t split _
  have member : op ∈ [PoolOp.query 0, .addAssign 1 0, .query 1] := by simp [split]
  simp only [List.mem_cons, List.not_mem_nil, or_false] at member
  rcases member with rfl | rfl | rfl <;> trivial

/-- A queried sketch merged with `+` yields a sketch that can be queried again. -/
theorem query_once_add : ¬Run.Always step Disciplined samplePool [.query 0, .add 0 1] := by
  have marks : (Run.run step samplePool [.query 0, .add 0 1]).map
      (fun pool => pool.map fun x => (x.derived, x.sketch.alreadyQuered)) =
      some [(true, true), (false, false), (true, false)] := by decide +kernel
  intro always
  obtain ⟨final, done, shape⟩ := Option.map_eq_some_iff.mp marks
  have listed : (true, false) ∈ final.map fun x => (x.derived, x.sketch.alreadyQuered) := by
    rw [shape]
    decide
  obtain ⟨x, member, pair⟩ := List.mem_map.mp listed
  obtain ⟨derived, unmarked⟩ := Prod.mk.inj pair
  have throws := always _ [] final rfl done x member derived
  rw [query_multiple_iff, unmarked] at throws
  exact Bool.false_ne_true throws

end PoolOp
end Zeppelin.Sketch
