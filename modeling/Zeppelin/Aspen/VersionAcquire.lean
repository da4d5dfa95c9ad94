import Zeppelin.Aspen.VersionSafety

/-! That the newest version is found. An entry is searched from the first index on,
which is the same for all timestamps, up to the first entry that is empty. The writer
puts a version into the first place on this way that is free, and no entry becomes
empty again, so there is no empty entry before the newest version. -/
namespace Zeppelin.Aspen.VersionedGraph

section Probing

theorem firstIndex_eq {v : Nat} (small : v < 2 ^ 32) : firstIndex v = firstIndex 0 := by
  rw [firstIndex, firstIndex, Nat.shiftRight_eq_div_pow, Nat.div_eq_of_lt small]
  rfl

/-- How many entries are looked at before the index. -/
def probes (h : Index) : Nat := (h.val + 512 - (firstIndex 0).val) % 512

theorem probes_firstIndex {v : Nat} (small : v < 2 ^ 32) : probes (firstIndex v) = 0 := by
  rw [firstIndex_eq small, probes, Nat.add_sub_cancel_left]

theorem probes_lt (h : Index) : probes h < 512 := Nat.mod_lt _ (by decide)

theorem probes_inj {h h' : Index} (same : probes h = probes h') : h = h' := by
  have start := (firstIndex 0).isLt
  have first := h.isLt
  have second := h'.isLt
  simp only [probes] at same
  exact Fin.ext (by omega)

/-- The search goes round after the last index. -/
theorem probes_increment (h : Index) :
    probes (incrementIndex h) = if probes h = 511 then 0 else probes h + 1 := by
  have start := (firstIndex 0).isLt
  have inside := h.isLt
  have next : (incrementIndex h).val = (h.val + 1) % 512 := rfl
  by_cases last : probes h = 511
  · rw [if_pos last]
    simp only [probes, next] at last ⊢
    omega
  · rw [if_neg last]
    simp only [probes, next] at last ⊢
    omega

end Probing

variable {ι : Type} [DecidableEq ι]

/-- The thread looks for a place for a new version. -/
def Pc.inserts : Pc → Bool
  | insert .. => true
  | _ => false

/-- The entries that were ever filled come first in the search, and the writer has
passed only such entries. -/
structure Contiguous (writer : ι) (s : State ι) : Prop where
  filled : ∀ h h', probes h' ≤ probes h → (s.table h).key ≠ maxTs → (s.table h').key ≠ maxTs
  passed : ∀ v root h, s.pc writer = .insert v root h → ∀ h', probes h' < probes h →
    (s.table h').key ≠ maxTs

section Invariant

variable {writer i : ι} {s t : State ι}

omit [DecidableEq ι] in
/-- A step that fills no entry keeps the places of the empty ones. -/
theorem Contiguous.of_kept (contiguous : Contiguous writer s)
    (kept : ∀ h, (t.table h).key = maxTs ↔ (s.table h).key = maxTs)
    (moved : ∀ v root h, t.pc writer = .insert v root h → s.pc writer = .insert v root h) :
    Contiguous writer t := by
  constructor
  · intro h h' before there
    rw [ne_eq, kept] at there ⊢
    exact contiguous.filled h h' before there
  · intro v root h here h' before
    rw [ne_eq, kept]
    exact contiguous.passed v root h (moved v root h here) h' before

theorem goto_not_insert {p : Pc} (other : p.inserts = false) {v : Version}
    {root : Option Nat} {h : Index} (here : (s.goto i p).pc writer = .insert v root h) :
    s.pc writer = .insert v root h := by
  rw [goto_pc] at here
  by_cases same : writer = i
  · rw [same, Function.update_self] at here
    rw [here] at other
    cases other
  · rwa [Function.update_of_ne same] at here

/-- The thread moves and the keys stay. -/
theorem Contiguous.goto (contiguous : Contiguous writer s) {p : Pc}
    (other : p.inserts = false) : Contiguous writer (s.goto i p) :=
  contiguous.of_kept (fun _ => Iff.rfl) fun _ _ _ => goto_not_insert other

/-- The thread moves after a store that leaves an entry filled. -/
theorem Contiguous.store_goto (contiguous : Contiguous writer s) {p : Pc} {h : Index} {e : Entry}
    (same : e.key = maxTs ↔ (s.table h).key = maxTs) (other : p.inserts = false) :
    Contiguous writer ((s.store h e).goto i p) := by
  refine contiguous.of_kept (fun h' => ?_) fun _ _ _ => goto_not_insert other
  change (Function.update s.table h e h').key = maxTs ↔ _
  by_cases here : h' = h
  · rwa [here, Function.update_self]
  · rw [Function.update_of_ne here]

/-- The writer fills the first empty entry, or one that was filled before, and
otherwise goes one entry on. -/
theorem Contiguous.insert (contiguous : Contiguous writer s) {v : Version} {root : Option Nat}
    {h : Index} (here : s.pc writer = .insert v root h) (small : s.currentTimestamp ≠ maxTs) :
    Contiguous writer (s.advance writer) := by
  have passed := contiguous.passed v root h here
  simp only [State.advance, here]
  split
  · refine ⟨?_, fun v' root' h' there => ?_⟩
    · intro h₁ h₂ before there
      change (Function.update s.table h _ h₁).key ≠ maxTs at there
      change (Function.update s.table h _ h₂).key ≠ maxTs
      by_cases second : h₂ = h
      · rw [second, Function.update_self]
        exact small
      rw [Function.update_of_ne second]
      by_cases first : h₁ = h
      · rw [first] at before
        exact passed h₂ (lt_of_le_of_ne before fun same => second (probes_inj same))
      · rw [Function.update_of_ne first] at there
        exact contiguous.filled h₁ h₂ before there
    · rw [goto_pc, Function.update_self] at there
      cases there
  · rename_i occupied
    split
    · exact contiguous.goto rfl
    · refine ⟨contiguous.filled, fun v' root' h' there h₁ before => ?_⟩
      rw [goto_pc, Function.update_self] at there
      cases there
      rw [probes_increment] at before
      split at before
      · cases before
      · rcases Nat.lt_succ_iff_lt_or_eq.mp before with earlier | same
        · exact passed h₁ earlier
        · rw [probes_inj same]
          exact fun empty => occupied (.inl empty)

variable [Fintype ι]

theorem Contiguous.advance (contiguous : Contiguous writer s) (inv : Inv writer s) (i : ι) :
    Contiguous writer (s.advance i) := by
  have ok := inv.thread i
  have small := inv.clock.2
  have belowMax : tombstone < maxTs := by decide
  cases here : s.pc i with
  | insert v root h =>
    obtain rfl := inv.alone i (by rw [here]; rfl)
    exact contiguous.insert here (by omega)
  | find | check | readTs | checkLatest | reread =>
    simp only [State.advance, here]
    repeat' split
    all_goals exact contiguous.goto rfl
  | idle | acquire | load | readRoot | hold =>
    simp only [State.advance, here]
    exact contiguous.goto rfl
  | publish v =>
    simp only [State.advance, here]
    have moved : ∀ v' root h, (s.goto i (.release v)).pc writer = .insert v' root h →
        s.pc writer = .insert v' root h := fun _ _ _ => goto_not_insert rfl
    exact contiguous.of_kept (fun _ => Iff.rfl) moved
  | swap latestTs h refctAndTs ts =>
    simp only [State.advance, here]
    split
    · exact contiguous.store_goto Iff.rfl rfl
    · exact contiguous.goto rfl
  | release v =>
    simp only [State.advance, here]
    split
    · exact contiguous.store_goto Iff.rfl rfl
    · exact contiguous.store_goto Iff.rfl rfl
  | close v curVal =>
    simp only [State.advance, here]
    split
    · exact contiguous.store_goto Iff.rfl rfl
    · exact contiguous.goto rfl
  | free v =>
    have moved : ∀ v' root h, (s.goto i (.clear v)).pc writer = .insert v' root h →
        s.pc writer = .insert v' root h := fun _ _ _ => goto_not_insert rfl
    simp only [State.advance, here]
    split
    · exact contiguous.goto rfl
    · split
      · exact contiguous.of_kept (fun _ => Iff.rfl) fun _ _ _ => id
      · exact contiguous.of_kept (fun _ => Iff.rfl) moved
  | clear v =>
    rw [here] at ok
    simp only [State.advance, here]
    refine contiguous.store_goto ?_ rfl
    rw [ok.2]
  | bury v =>
    rw [here] at ok
    simp only [State.advance, here]
    refine contiguous.store_goto ?_ rfl
    rw [ok.2.1]
    have young := ok.1
    constructor
    · intro left
      exact absurd left belowMax.ne
    · omega

theorem contiguous_step {a : Action ι} (contiguous : Contiguous writer s) (inv : Inv writer s)
    (done : step writer s a = some t) : Contiguous writer t := by
  simp only [step, inv.running, Bool.false_eq_true, if_false] at done
  cases a with
  | advance i =>
    obtain rfl : s.advance i = t := Option.some.inj done
    exact contiguous.advance inv i
  | build noEdges =>
    have small : s.currentTimestamp < 2 ^ 32 := inv.clock.2.trans (by decide)
    cases here : s.pc writer with
    | hold v =>
      rw [here] at done
      obtain rfl : s.build writer v noEdges = t := Option.some.inj done
      -- The search of the writer starts at the first index, with nothing passed.
      have start : ∀ root, Contiguous writer
          (s.goto writer (.insert v root (firstIndex s.currentTimestamp))) := by
        refine fun root => ⟨contiguous.filled, fun v' root' h there h' before => ?_⟩
        rw [goto_pc, Function.update_self] at there
        cases there
        rw [probes_firstIndex small] at before
        cases before
      cases noEdges with
      | true => exact ⟨(start v.root).filled, (start v.root).passed⟩
      | false => exact ⟨(start (some s.built)).filled, (start (some s.built)).passed⟩
    | _ =>
      rw [here] at done
      cases done

omit [Fintype ι] [DecidableEq ι] in
theorem initial_contiguous (writer : ι) (given : Bool) : Contiguous writer (initial ι given) := by
  constructor
  · intro h h' before there
    have first : h = firstIndex 0 := by
      by_contra other
      apply there
      simp only [initial, Function.update_of_ne other]
      rfl
    have start : probes (firstIndex 0) = 0 := probes_firstIndex (by decide)
    rw [first, start] at before
    obtain rfl : h' = firstIndex 0 := probes_inj (by rw [start]; omega)
    rwa [first] at there
  · intro v root h here
    cases here

end Invariant

section Acquiring

variable {writer i : ι} {s t : State ι} {n : Nat}

/-- A step of the thread, and then some more. -/
theorem run_turn (running : s.exited = false)
    (others : Run.run (step writer) (s.advance i) (turns i n) = some t) :
    Run.run (step writer) s (turns i (n + 1)) = some t := by
  have one : step writer s (.advance i) = some (s.advance i) := by
    simp only [step, running, Bool.false_eq_true, if_false]
  rw [turns, List.replicate_succ, Run.run_cons, one]
  exact others

theorem goto_here (p : Pc) : (s.goto i p).pc i = p := Function.update_self ..

theorem goto_goto (p q : Pc) : (s.goto i p).goto i q = s.goto i q := by
  simp only [State.goto, Function.update_idem]

/-- The search goes on to the entry that has the timestamp when no empty one is
before it. -/
theorem run_find (running : s.exited = false) {ts : Nat} (present : ts ≠ maxTs) {g : Index}
    (found : (s.table g).key = ts)
    (before : ∀ h, probes h < probes g → (s.table h).key ≠ maxTs ∧ (s.table h).key ≠ ts)
    (others : Run.run (step writer) (s.goto i (.check ts g)) (turns i n) = some t) (d : Nat)
    (h : Index) (distance : probes h + d = probes g) :
    Run.run (step writer) (s.goto i (.find ts h)) (turns i (n + 1 + d)) = some t := by
  induction d generalizing h with
  | zero =>
    rw [Nat.add_zero] at distance
    obtain rfl : h = g := probes_inj distance
    have look : (s.goto i (.find ts h)).advance i = s.goto i (.check ts h) := by
      have entry : ((s.goto i (.find ts h)).table h).key = ts := found
      simp only [State.advance, goto_here, entry, if_neg present, if_true, goto_goto]
    rw [Nat.add_zero]
    refine run_turn (s := s.goto i _) running ?_
    rw [look]
    exact others
  | succ d ih =>
    have nearer : probes h < probes g := by omega
    obtain ⟨filled, other⟩ := before h nearer
    have look : (s.goto i (.find ts h)).advance i = s.goto i (.find ts (incrementIndex h)) := by
      have entry : ((s.goto i (.find ts h)).table h).key = (s.table h).key := rfl
      simp only [State.advance, goto_here, entry, if_neg filled, if_neg other, goto_goto]
    have inside := probes_lt g
    have next : probes (incrementIndex h) + d = probes g := by
      rw [probes_increment, if_neg (by omega)]
      omega
    refine run_turn (s := s.goto i _) running ?_
    rw [look]
    exact ih (incrementIndex h) next

/-- A thread that found a counted entry and is alone counts itself there. -/
theorem run_count (running : s.exited = false) {ts : Nat} (young : ts ≠ tombstone) {g : Index}
    (found : (s.table g).key = ts) (counted : 0 < getRfct (s.table g).refct) :
    ∃ t, Run.run (step writer) (s.goto i (.check ts g)) (turns i 5) = some t ∧
      t.pc i = .hold ⟨ts, g, (s.table g).root⟩ := by
  have entry : ∀ p : Pc, (s.goto i p).table g = s.table g := fun _ => rfl
  have check : (s.goto i (.check ts g)).advance i = s.goto i (.load ts g) := by
    simp only [State.advance, goto_here, entry, found, if_neg young, goto_goto]
  have load : (s.goto i (.load ts g)).advance i = s.goto i (.readTs ts g (s.table g).refct) := by
    simp only [State.advance, goto_here, entry, goto_goto]
  have readTs : (s.goto i (.readTs ts g (s.table g).refct)).advance i =
      s.goto i (.swap ts g (s.table g).refct ts) := by
    simp only [State.advance, goto_here, entry, found, if_pos counted, goto_goto]
  have swap : (s.goto i (.swap ts g (s.table g).refct ts)).advance i =
      (s.store g { s.table g with refct := ((s.table g).refct + 1) % 2 ^ 64 }).goto i
        (.readRoot g ts) := by
    simp only [State.advance, goto_here, entry, if_true]
    simp only [State.goto, State.store, Function.update_idem]
  refine ⟨(s.store g { s.table g with refct := ((s.table g).refct + 1) % 2 ^ 64 }).goto i
    (.hold ⟨ts, g, (s.table g).root⟩), ?_, goto_here _⟩
  refine run_turn (s := s.goto i _) running ?_
  rw [check]
  refine run_turn (s := s.goto i _) running ?_
  rw [load]
  refine run_turn (s := s.goto i _) running ?_
  rw [readTs]
  refine run_turn (s := s.goto i _) running ?_
  rw [swap]
  refine run_turn (s := (s.store g _).goto i _) running ?_
  simp only [State.advance, goto_here, goto_goto]
  change some _ = some _
  simp only [State.goto, State.store, Function.update_self]

/-- A thread that acquires a version while the others rest gets the newest one. -/
theorem Contiguous.acquire [Fintype ι] (contiguous : Contiguous writer s) (inv : Inv writer s)
    (idle : s.pc i = .idle) : ∃ n t v, Run.run (step writer) s (turns i n) = some t ∧
      t.pc i = .hold v ∧ v.timestamp = s.latestTimestamp := by
  obtain ⟨g, key, counted⟩ := inv.latestThere
  have latest := latestTimestamp_eq inv.clock.1 inv.clock.2
  have young : s.latestTimestamp < tombstone := by
    have := inv.clock.2
    omega
  have present : s.latestTimestamp ≠ maxTs := (young.trans (by decide)).ne
  have before : ∀ h, probes h < probes g →
      (s.table h).key ≠ maxTs ∧ (s.table h).key ≠ s.latestTimestamp := by
    intro h earlier
    refine ⟨contiguous.filled g h (Nat.le_of_lt earlier) (key.trans_ne present), fun same => ?_⟩
    obtain rfl := inv.distinct h g (same.trans key.symm) (same.trans_lt young)
    exact Nat.lt_irrefl _ earlier
  have start : probes (firstIndex s.latestTimestamp) = 0 :=
    probes_firstIndex (young.trans (by decide))
  obtain ⟨t, taken, here⟩ : ∃ t, Run.run (step writer) (s.goto i (.check s.latestTimestamp g))
      (turns i 5) = some t ∧ t.pc i = .hold ⟨s.latestTimestamp, g, (s.table g).root⟩ :=
    run_count inv.running young.ne key counted
  have searching : (s.advance i).advance i =
      s.goto i (.find s.latestTimestamp (firstIndex s.latestTimestamp)) := by
    simp only [State.advance, idle, goto_here, goto_goto]
    rfl
  have found := run_find inv.running present key before taken (probes g) _
    (by rw [start, Nat.zero_add])
  rw [← searching] at found
  have acquiring : (s.advance i).exited = false := by
    simp only [State.advance, idle]
    exact inv.running
  exact ⟨_, t, _, run_turn inv.running (run_turn acquiring found), here, rfl⟩

/-- The newest version has an entry that is counted, and every thread that is in no
call gets it when it takes its turns alone. -/
structure LatestAcquirable (writer : ι) (s : State ι) : Prop where
  there : LatestThere s
  acquired : ∀ i, s.pc i = .idle → ∃ n t v, Run.run (step writer) s (turns i n) = some t ∧
    t.pc i = .hold v ∧ v.timestamp = s.latestTimestamp

variable [Fintype ι]

/-- The newest version can always be acquired. -/
theorem run_latestAcquirable (few : Fintype.card ι + 1 < 2 ^ 32) (given : Bool)
    {actions : List (Action ι)}
    (careful : Run.EachStep (step writer) (Careful writer) (initial ι given) actions) :
    Run.Always (step writer) (LatestAcquirable writer) (initial ι given) actions := by
  have initially := initial_inv writer given
  refine Run.always_of_eachStep (I := fun s => (Inv writer s ∧ Rooted writer s) ∧
    Contiguous writer s) ?_ ?_ ⟨initially, initial_contiguous writer given⟩ careful
  · rintro s ⟨⟨inv, -⟩, contiguous⟩
    exact ⟨inv.latestThere, fun i idle => contiguous.acquire inv idle⟩
  · rintro s a t ⟨both, contiguous⟩ good done
    exact ⟨inv_step few both good done, contiguous_step contiguous both.1 done⟩

theorem run_latestAcquirable_reader : Run.Always (step 1) (LatestAcquirable 1)
    (initial (Fin 2) true) [turns 0 3, turns 1 8, [.build false], turns 1 10, turns 0 4].flatten :=
  run_latestAcquirable (by decide) true (by decide +kernel)

end Acquiring

end Zeppelin.Aspen.VersionedGraph
