import Zeppelin.Aspen.VersionSteps

/-! What holds of the versions in every interleaving. Readers and the writer run
safely as long as an entry is filled again only when no thread refers to it; two
runs show what happens otherwise. -/
namespace Zeppelin.Aspen.VersionedGraph

open Threads

variable {ι : Type} [Fintype ι] [DecidableEq ι]

/-- The thread looks for a version. -/
def Pc.searches : Pc → Bool
  | idle | acquire | find .. | check .. | load .. | readTs .. | swap .. => true
  | _ => false

/-- The thread looks for a version, or gave one back. -/
def Pc.plain : Pc → Bool
  | checkLatest _ | reread _ | close .. => true
  | p => p.searches

/-- The condition on the steps: an entry is filled again only when no thread
refers to it, timestamps stay below the tombstone, and no batch is empty. -/
structure Careful (writer : ι) (s : State ι) (a : Action ι) : Prop where
  unreferenced : ∀ v root h, a = .advance writer → s.pc writer = .insert v root h →
    tombstone ≤ (s.table h).key → ∀ i, (s.pc i).refers ≠ some h
  room : ∀ v, a = .advance writer → s.pc writer = .publish v → s.currentTimestamp + 1 < tombstone
  edges : a ≠ .build true

/-- The condition as a check. -/
def Action.careful (writer : ι) (s : State ι) : Action ι → Bool
  | advance i => i ≠ writer || match s.pc writer with
    | .insert _ _ h => (s.table h).key < tombstone || decide (∀ j, (s.pc j).refers ≠ some h)
    | .publish _ => s.currentTimestamp + 1 < tombstone
    | _ => true
  | build noEdges => !noEdges

theorem careful_iff {writer : ι} {s : State ι} {a : Action ι} :
    a.careful writer s = true ↔ Careful writer s a := by
  constructor
  · intro check
    cases a with
    | advance i =>
      refine ⟨?_, ?_, nofun⟩
      · rintro v root h ⟨⟩ here left
        simpa [Action.careful, here, Nat.not_lt.mpr left] using check
      · rintro v ⟨⟩ here
        simpa [Action.careful, here] using check
    | build noEdges =>
      refine ⟨nofun, nofun, ?_⟩
      rintro ⟨⟩
      cases check
  · rintro ⟨unreferenced, room, edges⟩
    cases a with
    | advance i =>
      by_cases same : i = writer
      · subst same
        cases here : s.pc i with
        | insert v root h =>
          by_cases left : tombstone ≤ (s.table h).key
          · simpa [Action.careful, here] using .inr (unreferenced v root h rfl here left)
          · simpa [Action.careful, here] using .inl (Nat.lt_of_not_le left)
        | publish v => simpa [Action.careful, here] using room v rfl here
        | _ => simp [Action.careful, here]
      · simp [Action.careful, same]
    | build noEdges =>
      cases noEdges with
      | false => rfl
      | true => exact absurd rfl edges

instance (writer : ι) (s : State ι) (a : Action ι) : Decidable (Careful writer s a) :=
  decidable_of_iff _ careful_iff

section Runs

variable {writer : ι} {s t : State ι} {i : ι} {p : Pc} {a : Action ι}

omit [Fintype ι] [DecidableEq ι] in
theorem Pc.plain_fields (plain : p.plain = true) :
    p.publishes = false ∧ p.updates = false ∧ p.pending = none ∧ p.freed = none ∧
      (∀ h, p.holds h = false) ∧ ∀ h, p.closes h = false := by
  cases p with
  | idle | acquire | find _ _ | check _ _ | load _ _ | readTs _ _ _ | swap _ _ _ _ =>
    exact ⟨rfl, rfl, rfl, rfl, fun _ => rfl, fun _ => rfl⟩
  | checkLatest _ | reread _ | close _ _ => exact ⟨rfl, rfl, rfl, rfl, fun _ => rfl, fun _ => rfl⟩
  | _ => cases plain

/-- A step of a thread without a version that changes nothing that is shared. -/
theorem Inv.move_plain (inv : Inv writer s) (rooted : Rooted writer s)
    (before : (s.pc i).plain = true) (after : p.plain = true)
    (ok : p.Ok s.table s.currentTimestamp)
    (newest : i = writer → ∀ t ∈ p.timestamp, t + 1 = s.currentTimestamp)
    (retires : ∀ h, (s.table h).key + 1 < s.currentTimestamp → 0 < getRfct (s.table h).refct →
      s.holders h = 0 → (s.pc i).retires h (s.table h).refct = true →
        p.retires h (s.table h).refct = true) :
    Inv writer (s.goto i p) ∧ Rooted writer (s.goto i p) := by
  obtain ⟨publishes, -, pending, freed, holds, closes⟩ := Pc.plain_fields before
  obtain ⟨publishes', updates', pending', freed', holds', closes'⟩ := Pc.plain_fields after
  refine ⟨inv.move (publishes'.trans publishes.symm) (fun updates => ?_)
    (fun h => (holds' h).trans (holds h).symm) (fun h => (closes' h).trans (closes h).symm) ok newest
    retires, rooted.move (pending'.trans pending.symm) (freed'.trans freed.symm)⟩
  rw [updates'] at updates
  cases updates

omit [Fintype ι] [DecidableEq ι] in
theorem latestTimestamp_eq (positive : 0 < s.currentTimestamp)
    (small : s.currentTimestamp < tombstone) : s.latestTimestamp + 1 = s.currentTimestamp := by
  have : tombstone < 2 ^ 32 := by decide
  rw [State.latestTimestamp]
  omega

theorem Inv.advance_search (inv : Inv writer s) (rooted : Rooted writer s)
    (searches : (s.pc i).searches = true) (few : Fintype.card ι + 1 < 2 ^ 32) :
    Inv writer (s.advance i) ∧ Rooted writer (s.advance i) := by
  have ok := inv.thread i
  have newest : i = writer → ∀ t ∈ (s.pc i).timestamp, t + 1 = s.currentTimestamp := by
    rintro rfl
    exact inv.newest
  have latest := latestTimestamp_eq inv.clock.1 inv.clock.2
  obtain ⟨plain, unretiring⟩ :
      (s.pc i).plain = true ∧ ∀ h word, (s.pc i).retires h word = false := by
    generalize s.pc i = q at searches
    cases q with
    | idle | acquire | find _ _ | check _ _ | load _ _ | readTs _ _ _ | swap _ _ _ _ =>
      exact ⟨rfl, fun _ _ => rfl⟩
    | _ => cases searches
  have go : ∀ q : Pc, q.plain = true → q.Ok s.table s.currentTimestamp →
      (i = writer → ∀ t ∈ q.timestamp, t + 1 = s.currentTimestamp) →
        Inv writer (s.goto i q) ∧ Rooted writer (s.goto i q) := by
    intro q after ok newest
    refine inv.move_plain rooted plain after ok newest fun h _ _ _ retiring => ?_
    rw [unretiring] at retiring
    cases retiring
  have restart := go .acquire rfl trivial fun _ _ => nofun
  unfold State.advance
  cases here : s.pc i with
  | idle => exact restart
  | acquire =>
    refine go _ rfl (Nat.lt_of_succ_le latest.le) fun _ t stamped => ?_
    rw [← Option.some.inj stamped]
    exact latest
  | find latestTs h =>
    rw [here] at ok newest
    show Inv writer (if _ then _ else if _ then _ else _) ∧ Rooted writer (if _ then _ else if _ then _ else _)
    split
    · exact restart
    · split
      next found => exact go _ rfl ⟨ok, .inl found⟩ newest
      next => exact go _ rfl ok newest
  | check latestTs h =>
    rw [here] at ok newest
    show Inv writer (if _ then _ else _) ∧ Rooted writer (if _ then _ else _)
    split
    · exact restart
    · exact go _ rfl ok newest
  | load latestTs h =>
    rw [here] at ok newest
    exact go _ rfl ok newest
  | readTs latestTs h refctAndTs =>
    rw [here] at ok newest
    show Inv writer (if _ then _ else _) ∧ Rooted writer (if _ then _ else _)
    split
    next counted => exact go _ rfl ⟨ok.1, ok.2, ok.2, counted⟩ newest
    next => exact restart
  | swap latestTs h refctAndTs ts =>
    rw [here] at ok newest
    show Inv writer (if _ then _ else _) ∧ Rooted writer (if _ then _ else _)
    split
    next same =>
      exact ⟨inv.swap few here same, rooted.recount (by rw [here]; rfl) (by rw [here]; rfl)⟩
    next => exact go _ rfl ⟨ok.1, ok.2.1⟩ newest
  | _ =>
    rw [here] at searches
    cases searches

omit [DecidableEq ι] in
theorem Inv.with_roots (inv : Inv writer s) (refCnt : Nat → Nat) (built : Nat) :
    Inv writer { s with refCnt, built } :=
  ⟨inv.running, inv.clock, inv.phase, inv.distinct, inv.bound, inv.live, inv.retired, inv.thread,
    inv.alone, inv.newest⟩

theorem Inv.advance_hold (inv : Inv writer s) (rooted : Rooted writer s) {v : Version}
    (here : s.pc i = .hold v) :
    Inv writer (s.goto i (.release v)) ∧ Rooted writer (s.goto i (.release v)) := by
  have ok := inv.thread i
  rw [here] at ok
  refine ⟨inv.move ?_ nofun ?_ ?_ ok (fun _ _ => nofun) ?_,
    rooted.move (by rw [here]; rfl) (by rw [here]; rfl)⟩
  · rw [here]
    rfl
  · rw [here]
    exact fun _ => rfl
  · rw [here]
    exact fun _ => rfl
  · rw [here]
    exact fun _ _ _ _ => nofun

theorem Inv.advance_readRoot (inv : Inv writer s) (rooted : Rooted writer s) {h : Index} {ts : Nat}
    (here : s.pc i = .readRoot h ts) :
    Inv writer (s.goto i (.hold ⟨ts, h, (s.table h).root⟩)) ∧
      Rooted writer (s.goto i (.hold ⟨ts, h, (s.table h).root⟩)) := by
  have ok := inv.thread i
  rw [here] at ok
  refine ⟨inv.move ?_ nofun ?_ ?_ ⟨ok.1, ok.2, rfl⟩ ?_ ?_,
    rooted.move (by rw [here]; rfl) (by rw [here]; rfl)⟩
  · rw [here]
    rfl
  · rw [here]
    exact fun _ => rfl
  · rw [here]
    exact fun _ => rfl
  · rintro rfl t stamped
    exact inv.newest t (by rw [here]; exact stamped)
  · rw [here]
    exact fun _ _ _ _ => nofun

theorem Inv.advance_insert (inv : Inv writer s) (rooted : Rooted writer s)
    (careful : Careful writer s (.advance i)) {v : Version} {root : Option Nat} {h : Index}
    (here : s.pc i = .insert v root h) :
    Inv writer (s.advance i) ∧ Rooted writer (s.advance i) := by
  obtain rfl : i = writer := inv.alone i (by rw [here]; rfl)
  have ok := inv.thread i
  rw [here] at ok
  simp only [State.advance, here]
  split
  next left =>
    have left : tombstone ≤ (s.table h).key := by
      rcases left with empty | gone
      · rw [empty]
        decide
      · rw [gone]
    have unreferenced := careful.unreferenced v root h rfl here left
    exact ⟨inv.fill here left unreferenced,
      rooted.fill here ((inv.phase h).of_vacant left).2.1 unreferenced rfl⟩
  next taken =>
    split
    next same =>
      -- the key of an entry is below the timestamp that is inserted
      have below := inv.bound h (same ▸ inv.clock.2)
      rw [State.fresh, here, same] at below
      exact absurd below (Nat.lt_irrefl _)
    next =>
      refine ⟨inv.move ?_ (fun _ => rfl) ?_ ?_ ok ?_ ?_,
        rooted.move (by rw [here]; rfl) (by rw [here]; rfl)⟩
      · rw [here]
        rfl
      · rw [here]
        exact fun _ => rfl
      · rw [here]
        exact fun _ => rfl
      · intro _ t stamped
        exact inv.newest t (by rw [here]; exact stamped)
      · rw [here]
        intro _ _ _ _ retiring
        cases retiring

theorem Inv.advance_checkLatest (inv : Inv writer s) (rooted : Rooted writer s) {v : Version}
    (here : s.pc i = .checkLatest v) :
    Inv writer (s.advance i) ∧ Rooted writer (s.advance i) := by
  have ok := inv.thread i
  rw [here] at ok
  have latest := latestTimestamp_eq inv.clock.1 inv.clock.2
  simp only [State.advance, here]
  split
  next older =>
    refine inv.move_plain rooted (by rw [here]; rfl) rfl ⟨?_, ok.2⟩ (fun _ _ => nofun) ?_
    · have := ok.1
      omega
    · rw [here]
      exact fun _ _ _ _ retiring => retiring
  next same =>
    have same : v.timestamp = s.latestTimestamp := not_not.mp same
    refine inv.move_plain rooted (by rw [here]; rfl) rfl trivial (fun _ _ => nofun) ?_
    intro h old counted _ retiring
    rw [here] at retiring
    -- the entry is the one of the latest version
    obtain rfl : v.tableEntry = h := of_decide_eq_true retiring
    have small := ((inv.phase _).of_count counted).1
    obtain ⟨key, -⟩ := ok.2.resolve_left fun gone => by omega
    omega

theorem Inv.advance_reread (inv : Inv writer s) (rooted : Rooted writer s) {v : Version}
    (here : s.pc i = .reread v) :
    Inv writer (s.advance i) ∧ Rooted writer (s.advance i) := by
  have ok := inv.thread i
  rw [here] at ok
  simp only [State.advance, here]
  split
  next one =>
    refine inv.move_plain rooted (by rw [here]; rfl) rfl ⟨ok.1, ok.2, one⟩ (fun _ _ => nofun) ?_
    rw [here]
    intro h _ _ _ retiring
    obtain rfl : v.tableEntry = h := of_decide_eq_true retiring
    exact Bool.and_eq_true_iff.mpr ⟨decide_eq_true rfl, decide_eq_true rfl⟩
  next more =>
    refine inv.move_plain rooted (by rw [here]; rfl) rfl trivial (fun _ _ => nofun) ?_
    intro h _ counted unheld retiring
    rw [here] at retiring
    -- without holders the count would be one
    obtain rfl : v.tableEntry = h := of_decide_eq_true retiring
    have refct := ((inv.phase _).of_count counted).2.1
    rw [refct, unheld, getRfct_makeRefct (by decide)] at more
    exact absurd rfl more

theorem Inv.advance_close (inv : Inv writer s) (rooted : Rooted writer s) {v : Version}
    {curVal : Nat} (few : Fintype.card ι + 1 < 2 ^ 32) (here : s.pc i = .close v curVal) :
    Inv writer (s.advance i) ∧ Rooted writer (s.advance i) := by
  simp only [State.advance, here]
  split
  next same =>
    exact ⟨inv.close few here same, rooted.recount (by rw [here]; rfl) (by rw [here]; rfl)⟩
  next changed =>
    refine inv.move_plain rooted (by rw [here]; rfl) rfl trivial (fun _ _ => nofun) ?_
    intro h _ _ _ retiring
    rw [here] at retiring
    obtain ⟨entry, word⟩ := Bool.and_eq_true_iff.mp retiring
    obtain rfl : v.tableEntry = h := of_decide_eq_true entry
    exact absurd (of_decide_eq_true word).symm changed

theorem Inv.advance_free (inv : Inv writer s) (rooted : Rooted writer s) {v : Version}
    (here : s.pc i = .free v) : Inv writer (s.advance i) ∧ Rooted writer (s.advance i) := by
  have ok := inv.thread i
  rw [here] at ok
  have moved : Inv writer (s.goto i (.clear v)) := by
    refine inv.move ?_ nofun ?_ ?_ ⟨ok.1, ok.2.1⟩ (fun _ _ => nofun) ?_
    · rw [here]
      rfl
    · rw [here]
      exact fun _ => rfl
    · rw [here]
      exact fun _ => rfl
    · rw [here]
      exact fun _ _ _ _ => nofun
  simp only [State.advance, here]
  cases root : v.root with
  | none => exact ⟨moved, rooted.free_none inv here root⟩
  | some r =>
    have one := (rooted.counted _ r (inv.owns_free here root)).1
    show Inv writer (if _ then _ else _) ∧ Rooted writer (if _ then _ else _)
    rw [if_neg (not_not.mpr one)]
    exact ⟨moved.with_roots _ _, rooted.free_some inv here root⟩

theorem Inv.advance (few : Fintype.card ι + 1 < 2 ^ 32) (inv : Inv writer s)
    (rooted : Rooted writer s) (careful : Careful writer s (.advance i)) :
    Inv writer (s.advance i) ∧ Rooted writer (s.advance i) := by
  have ok := inv.thread i
  cases here : s.pc i with
  | idle | acquire | find _ _ | check _ _ | load _ _ | readTs _ _ _ | swap _ _ _ _ =>
    exact inv.advance_search rooted (by rw [here]; rfl) few
  | readRoot h ts =>
    simp only [State.advance, here]
    exact inv.advance_readRoot rooted here
  | hold v =>
    simp only [State.advance, here]
    exact inv.advance_hold rooted here
  | insert v root h => exact inv.advance_insert rooted careful here
  | publish v =>
    obtain rfl : i = writer := inv.alone i (by rw [here]; rfl)
    have published := inv.publish here (careful.room v rfl here)
    have moved : Rooted i (s.goto i (.release v)) :=
      rooted.move (by rw [here]; rfl) (by rw [here]; rfl)
    simp only [State.advance, here]
    exact ⟨published, moved.counted, moved.alone, moved.owned⟩
  | release v =>
    have released := inv.release few here
    have plain : ∀ c : Prop, [Decidable c] → (if c then Pc.checkLatest v else .idle).plain = true := by
      intro c _
      split
      · rfl
      · rfl
    obtain ⟨-, -, pending, freed, -, -⟩ := Pc.plain_fields
      (plain (getRfct (s.table v.tableEntry).refct = 2))
    simp only [State.advance, here]
    exact ⟨released, rooted.recount (pending.trans (by rw [here]; rfl)) (freed.trans (by rw [here]; rfl))⟩
  | checkLatest v => exact inv.advance_checkLatest rooted here
  | reread v => exact inv.advance_reread rooted here
  | close v curVal => exact inv.advance_close rooted few here
  | free v => exact inv.advance_free rooted here
  | clear v =>
    simp only [State.advance, here]
    exact ⟨inv.clear here, rooted.clear here _ rfl⟩
  | bury v =>
    rw [here] at ok
    simp only [State.advance, here]
    exact ⟨inv.bury here, rooted.bury here _ ok.2.2 rfl⟩

theorem inv_step (few : Fintype.card ι + 1 < 2 ^ 32) (inv : Inv writer s ∧ Rooted writer s)
    (careful : Careful writer s a) (done : step writer s a = some t) :
    Inv writer t ∧ Rooted writer t := by
  obtain ⟨inv, rooted⟩ := inv
  simp only [step, inv.running, Bool.false_eq_true, if_false] at done
  cases a with
  | advance i =>
    obtain rfl : s.advance i = t := Option.some.inj done
    exact inv.advance few rooted careful
  | build noEdges =>
    obtain rfl : noEdges = false := by
      cases noEdges with
      | false => rfl
      | true => exact absurd rfl careful.edges
    cases here : s.pc writer with
    | hold v =>
      rw [here] at done
      obtain rfl : s.build writer v false = t := Option.some.inj done
      have ok := inv.thread writer
      rw [here] at ok
      have moved : Inv writer (s.goto writer
          (.insert v (some s.built) (firstIndex s.currentTimestamp))) := by
        refine inv.move ?_ (fun _ => rfl) ?_ ?_ ok (fun _ t stamped => ?_) ?_
        · rw [here]
          rfl
        · rw [here]
          exact fun _ => rfl
        · rw [here]
          exact fun _ => rfl
        · exact inv.newest t (by rw [here]; exact stamped)
        · rw [here]
          exact fun _ _ _ _ => nofun
      exact ⟨moved.with_roots _ _, rooted.build here _⟩
    | _ =>
      rw [here] at done
      cases done

omit [DecidableEq ι] in
theorem initial_inv (writer : ι) (given : Bool) :
    Inv writer (initial ι given) ∧ Rooted writer (initial ι given) := by
  have unheld : ∀ h, (initial ι given).holders h = 0 := fun h => count_eq_zero.mpr fun _ => nofun
  have open' : ∀ h, (initial ι given).closers h = 0 := fun h => count_eq_zero.mpr fun _ => nofun
  have first : (initial ι given).table (firstIndex 0) =
      ⟨0, makeRefct 0 1, if given then some 0 else none⟩ := by
    simp only [initial, Function.update_self]
  have others : ∀ h ≠ firstIndex 0, (initial ι given).table h = Entry.empty := by
    intro h other
    simp only [initial, Function.update_of_ne other]
  have only : ∀ h, ((initial ι given).table h).key < tombstone → h = firstIndex 0 := by
    intro h small
    by_contra other
    rw [others h other] at small
    exact absurd small (by decide)
  have owns : ∀ o r, (initial ι given).Owns writer o r →
      o = some (firstIndex 0) ∧ given = true ∧ r = 0 := by
    rintro (_ | h) r owned
    · cases owned
    · have root := owned.1
      by_cases same : h = firstIndex 0
      · subst same
        rw [first] at root
        cases given with
        | false => cases root
        | true =>
          cases root
          exact ⟨rfl, rfl, rfl⟩
      · rw [others h same] at root
        cases root
  refine ⟨⟨rfl, ⟨Nat.one_pos, show 1 < tombstone by decide⟩, fun h => ?_, fun h h' same small => ?_, fun h small => ?_,
    fun t young next => ?_, fun h old => ?_, fun _ => trivial, fun _ => nofun, fun _ => nofun⟩,
    fun o r owned => ?_, fun o o' r first second => ?_, fun r present => ?_⟩
  · rw [unheld, open']
    by_cases same : h = firstIndex 0
    · subst same
      rw [first]
      exact .opened (show 0 < tombstone by decide) rfl rfl
    · rw [others h same]
      exact .vacant (show tombstone ≤ maxTs by decide) getRfct_zero rfl rfl rfl
  · rw [only h small, only h' (same ▸ small)]
  · rw [only h small, first]
    exact Nat.one_pos
  · obtain rfl : t = 0 := Nat.lt_one_iff.mp young
    refine ⟨firstIndex 0, by rw [first], ?_⟩
    rw [first, getRfct_makeRefct (by decide)]
    exact Nat.one_pos
  · exact absurd old (Nat.not_lt.mpr (Nat.le_add_left _ _))
  · obtain ⟨-, rfl, rfl⟩ := owns o r owned
    exact ⟨rfl, Nat.one_pos⟩
  · rw [(owns o r first).1, (owns o' r second).1]
  · have present : (if given = true ∧ r = 0 then 1 else 0) ≠ 0 := present
    have there : given = true ∧ r = 0 := by
      by_contra none
      rw [if_neg none] at present
      exact present rfl
    obtain ⟨rfl, rfl⟩ := there
    exact ⟨some (firstIndex 0), by rw [first]; rfl, fun _ => nofun⟩

/-- The invariant along every run of careful steps. -/
theorem always_inv (few : Fintype.card ι + 1 < 2 ^ 32) (writer : ι) (given : Bool)
    {actions : List (Action ι)}
    (careful : Run.EachStep (step writer) (Careful writer) (initial ι given) actions) :
    Run.Always (step writer) (fun s => Inv writer s ∧ Rooted writer s) (initial ι given) actions :=
  Run.always_of_eachStep id (inv_step few) (initial_inv writer given) careful

end Runs

/-- The version that a thread has. -/
def Pc.version : Pc → Option Version
  | hold v | insert v _ _ | publish v | release v => some v
  | _ => none

/-- The graph of a version that a thread has is there, and the program does not
exit over a reference count. -/
structure HeldSafely (s : State ι) : Prop where
  running : s.exited = false
  entry : ∀ i v, (s.pc i).version = some v → (s.table v.tableEntry).key = v.timestamp ∧
    (s.table v.tableEntry).refct = makeRefct v.timestamp (1 + s.holders v.tableEntry)
  graph : ∀ i v r, (s.pc i).version = some v → v.root = some r → s.refCnt r = 1

/-- The newest version has an entry that is counted. -/
def LatestThere (s : State ι) : Prop :=
  ∃ h, (s.table h).key = s.latestTimestamp ∧ 0 < getRfct (s.table h).refct

/-- When no thread is in a call, only the newest version and its graph are left. -/
structure OnlyLatest (s : State ι) : Prop where
  version : ∀ h, (s.table h).key < tombstone → (s.table h).key = s.latestTimestamp
  alone : ∀ h h', (s.table h).key = s.latestTimestamp → (s.table h').key = s.latestTimestamp → h = h'
  graph : ∀ r, s.refCnt r ≠ 0 → ∃ h, (s.table h).key = s.latestTimestamp ∧ (s.table h).root = some r

section Safety

variable {writer : ι} {s : State ι}

omit [DecidableEq ι] in
theorem Inv.heldSafely (inv : Inv writer s) (rooted : Rooted writer s) : HeldSafely s := by
  have facts : ∀ i v, (s.pc i).version = some v →
      (s.pc i).holds v.tableEntry = true ∧ (s.table v.tableEntry).Is v := by
    intro i v has
    have ok := inv.thread i
    cases here : s.pc i with
    | hold w | insert w _ _ | publish w | release w =>
      rw [here] at has ok
      obtain rfl : w = v := Option.some.inj has
      exact ⟨decide_eq_true rfl, ok.2⟩
    | _ =>
      rw [here] at has
      cases has
  refine ⟨inv.running, fun i v has => ?_, fun i v r has root => ?_⟩
  · obtain ⟨held, key, -⟩ := facts i v has
    obtain ⟨-, refct, -⟩ := (inv.phase _).of_holders (count_pos held)
    exact ⟨key, by rw [refct, key]⟩
  · obtain ⟨held, -, same⟩ := facts i v has
    obtain ⟨-, -, unclosed⟩ := (inv.phase _).of_holders (count_pos held)
    refine (rooted.counted (some v.tableEntry) r ⟨same.trans root, fun j freed => ?_⟩).1
    apply count_eq_zero.mp unclosed j
    cases there : s.pc j with
    | clear w =>
      rw [there] at freed
      exact decide_eq_true (Option.some.inj freed)
    | _ =>
      rw [there] at freed
      cases freed

omit [DecidableEq ι] in
theorem Inv.latestThere (inv : Inv writer s) : LatestThere s := by
  have latest := latestTimestamp_eq inv.clock.1 inv.clock.2
  apply inv.live
  · rw [State.fresh]
    split
    · omega
    · omega
  · omega

omit [DecidableEq ι] in
theorem Inv.onlyLatest (inv : Inv writer s) (rooted : Rooted writer s)
    (quiet : ∀ i, s.pc i = .idle) : OnlyLatest s := by
  have latest := latestTimestamp_eq inv.clock.1 inv.clock.2
  have unheld : ∀ h, s.holders h = 0 := fun h => count_eq_zero.mpr fun i => by rw [quiet i]; nofun
  have open' : ∀ h, s.closers h = 0 := fun h => count_eq_zero.mpr fun i => by rw [quiet i]; nofun
  have fresh : s.fresh writer = s.currentTimestamp := by
    rw [State.fresh, quiet writer]
    rfl
  have version : ∀ h, (s.table h).key < tombstone → (s.table h).key = s.latestTimestamp := by
    intro h small
    by_contra other
    have young := inv.bound h small
    have counted : 0 < getRfct (s.table h).refct := by
      cases inv.phase h with
      | opened key refct _ =>
        rw [refct, unheld, getRfct_makeRefct (by decide)]
        exact Nat.one_pos
      | closed key refct _ one =>
        rw [open'] at one
        cases one
      | vacant key refct root _ _ => exact absurd small (Nat.not_lt.mpr key)
    obtain ⟨i, retiring⟩ := inv.retired h (by omega) counted (unheld h)
    rw [quiet i] at retiring
    cases retiring
  have alone : ∀ h h', (s.table h).key = s.latestTimestamp →
      (s.table h').key = s.latestTimestamp → h = h' := by
    intro h h' first second
    have small := inv.clock.2
    exact inv.distinct h h' (first.trans second.symm) (by omega)
  refine ⟨version, alone, fun r present => ?_⟩
  obtain ⟨_ | h, owned⟩ := rooted.owned r present
  · rw [State.Owns, quiet writer] at owned
    cases owned
  · refine ⟨h, version h ?_, owned.1⟩
    by_contra left
    have none := ((inv.phase h).of_vacant (Nat.le_of_not_lt left)).2.1
    rw [owned.1] at none
    cases none

/-- No thread has a version whose graph was freed. -/
theorem run_heldSafely (few : Fintype.card ι + 1 < 2 ^ 32) (given : Bool) {actions : List (Action ι)}
    (careful : Run.EachStep (step writer) (Careful writer) (initial ι given) actions) :
    Run.Always (step writer) HeldSafely (initial ι given) actions :=
  fun before after s split reached =>
    have inv := always_inv few writer given careful before after s split reached
    inv.1.heldSafely inv.2

/-- A reader keeps the first version while the writer makes a second one. -/
theorem run_heldSafely_reader : Run.Always (step 1) HeldSafely (initial (Fin 2) true)
    [turns 0 8, turns 1 8, [.build false], turns 1 4].flatten :=
  run_heldSafely (by decide) true (by decide +kernel)

/-- Without the condition: a thread that gave back the first version looks at its
entry again when another thread has freed it and the writer has filled it, and
frees the graph once more. -/
theorem run_freed_twice : (Run.run (step 1) (initial (Fin 3) true)
    [turns 0 3, turns 2 8, turns 1 8, [.build false], turns 1 4, turns 2 3, turns 0 13, turns 1 9,
      [.build false], turns 1 2, turns 2 3].flatten).map State.exited = some true := by
  decide +kernel

instance (s : State ι) : Decidable (LatestThere s) :=
  inferInstanceAs (Decidable (∃ h, (s.table h).key = s.latestTimestamp ∧
    0 < getRfct (s.table h).refct))

/-- Without the condition: a reader that found the first version acquires the
third one from the same entry before it is visible, takes it for an old one and
frees it. -/
theorem run_latest_lost : (Run.run (step 1) (initial (Fin 2) true)
    [turns 0 3, turns 1 8, [.build false], turns 1 19, [.build false], turns 1 1, turns 0 13,
      turns 1 1].flatten).map (fun s => decide (LatestThere s)) = some false := by
  decide +kernel

/-- No version is left behind. -/
theorem run_onlyLatest (few : Fintype.card ι + 1 < 2 ^ 32) (given : Bool) {actions : List (Action ι)}
    (careful : Run.EachStep (step writer) (Careful writer) (initial ι given) actions) :
    Run.Always (step writer) (fun s => (∀ i, s.pc i = .idle) → OnlyLatest s) (initial ι given) actions :=
  fun before after s split reached quiet =>
    have inv := always_inv few writer given careful before after s split reached
    inv.1.onlyLatest inv.2 quiet

theorem run_onlyLatest_reader : Run.Always (step 1)
    (fun s => (∀ i, s.pc i = .idle) → OnlyLatest s) (initial (Fin 2) true)
    [turns 0 8, turns 1 8, [.build false], turns 1 4, turns 0 8].flatten :=
  run_onlyLatest (by decide) true (by decide +kernel)

end Safety

end Zeppelin.Aspen.VersionedGraph
