import Zeppelin.Aspen.VersionInvariant

/-! The steps that change what threads share keep the invariant: a version is
acquired and released, closed and taken out, inserted and made visible, and every
root has one owner until it is freed. -/
namespace Zeppelin.Aspen.VersionedGraph

open Threads

variable {ι : Type} [Fintype ι] [DecidableEq ι]

section Steps

variable {writer : ι} {s : State ι} {i : ι} {v : Version}

theorem holders_goto_enter {p : Pc} {h : Index} (before : (s.pc i).holds h = false)
    (after : p.holds h = true) : (s.goto i p).holders h = s.holders h + 1 :=
  count_update_enter (Bool.not_eq_true _ ▸ before) after

theorem holders_goto_leave {p : Pc} {h : Index} (before : (s.pc i).holds h = true)
    (after : p.holds h = false) : (s.goto i p).holders h + 1 = s.holders h :=
  count_update_leave before (Bool.not_eq_true _ ▸ after)

theorem closers_goto_enter {p : Pc} {h : Index} (before : (s.pc i).closes h = false)
    (after : p.closes h = true) : (s.goto i p).closers h = s.closers h + 1 :=
  count_update_enter (Bool.not_eq_true _ ▸ before) after

theorem closers_goto_leave {p : Pc} {h : Index} (before : (s.pc i).closes h = true)
    (after : p.closes h = false) : (s.goto i p).closers h + 1 = s.closers h :=
  count_update_leave before (Bool.not_eq_true _ ▸ after)

/-- A thread gets the version that it found. -/
theorem Inv.swap (few : Fintype.card ι + 1 < 2 ^ 32) (inv : Inv writer s) {latestTs ts refctAndTs : Nat}
    {h : Index} (here : s.pc i = .swap latestTs h refctAndTs ts)
    (same : (s.table h).refct = refctAndTs) :
    Inv writer ((s.recount h ((refctAndTs + 1) % 2 ^ 64)).goto i (.readRoot h ts)) := by
  have ok := inv.thread i
  rw [here] at ok
  obtain ⟨young, found, read, counted⟩ := ok
  rw [← same] at counted
  obtain ⟨key, refct, unclosed⟩ := (inv.phase h).of_count counted
  have entered : (s.goto i (.readRoot h ts)).holders h = s.holders h + 1 :=
    holders_goto_enter (by rw [here]; rfl) (decide_eq_true rfl)
  have most : (s.goto i (.readRoot h ts)).holders h ≤ Fintype.card ι := count_le _
  have more : s.holders h + 1 ≤ Fintype.card ι := entered ▸ most
  have word : (refctAndTs + 1) % 2 ^ 64 = makeRefct (s.table h).key (1 + s.holders h + 1) := by
    rw [← same, refct, makeRefct_succ (key.trans (by decide)) (by omega)]
  have count : getRfct ((refctAndTs + 1) % 2 ^ 64) = 1 + s.holders h + 1 := by
    rw [word, getRfct_makeRefct (by omega)]
  have found : (s.table h).key = latestTs := found.resolve_right fun gone => by omega
  have read : ts = latestTs := read.resolve_right fun gone => by omega
  apply inv.recount
  · rw [here]
    rfl
  · exact nofun
  · intro h' other
    rw [here]
    exact decide_eq_false other.symm
  · intro h' other
    rw [here]
    rfl
  · rw [entered, closers_goto_of_eq (by rw [here]; rfl)]
    refine .opened ?_ ?_ unclosed
    · rwa [(recount_table s h _ h).1]
    · rw [(recount_table s h _ h).1, recount_refct, word, Nat.add_assoc]
  · exact fun _ => counted
  · right
    omega
  · intro h' other word
    rw [here]
    rfl
  · intro old positive unheld
    omega
  · refine ⟨by omega, ?_⟩
    rw [(recount_table s h _ h).1, found, read]
  · rintro rfl t ⟨⟩
    exact inv.newest ts (by rw [here, read]; rfl)

/-- A thread gives its version back. -/
theorem Inv.release (few : Fintype.card ι + 1 < 2 ^ 32) (inv : Inv writer s)
    (here : s.pc i = .release v) :
    Inv writer ((s.recount v.tableEntry
        (((s.table v.tableEntry).refct + (2 ^ 64 - 1)) % 2 ^ 64)).goto i
      (if getRfct (s.table v.tableEntry).refct = 2 then .checkLatest v else .idle)) := by
  have ok := inv.thread i
  rw [here] at ok
  obtain ⟨young, key, root⟩ := ok
  have held : (s.pc i).holds v.tableEntry = true := by
    rw [here]
    exact decide_eq_true rfl
  obtain ⟨small, refct, unclosed⟩ := (inv.phase v.tableEntry).of_holders (count_pos held)
  have most : s.holders v.tableEntry ≤ Fintype.card ι := count_le s.pc
  have before : getRfct (s.table v.tableEntry).refct = 1 + s.holders v.tableEntry := by
    rw [refct, getRfct_makeRefct (by omega)]
  rw [before]
  generalize next : (if 1 + s.holders v.tableEntry = 2 then Pc.checkLatest v else .idle) = p
  have plain : p = .checkLatest v ∨ p = .idle := by
    rw [← next]
    split
    · exact .inl rfl
    · exact .inr rfl
  have unheld : ∀ h, p.holds h = false := by
    rcases plain with rfl | rfl
    · exact fun _ => rfl
    · exact fun _ => rfl
  have open' : ∀ h, p.closes h = false := by
    rcases plain with rfl | rfl
    · exact fun _ => rfl
    · exact fun _ => rfl
  have left : (s.goto i p).holders v.tableEntry + 1 = s.holders v.tableEntry :=
    holders_goto_leave held (unheld _)
  have word : ((s.table v.tableEntry).refct + (2 ^ 64 - 1)) % 2 ^ 64 =
      makeRefct (s.table v.tableEntry).key (1 + (s.goto i p).holders v.tableEntry) := by
    rw [refct, ← left, ← Nat.add_assoc, makeRefct_pred (small.trans (by decide)) (by omega)]
  have count : getRfct (((s.table v.tableEntry).refct + (2 ^ 64 - 1)) % 2 ^ 64) =
      1 + (s.goto i p).holders v.tableEntry := by
    rw [word, getRfct_makeRefct (by omega)]
  apply inv.recount
  · rw [here]
    rcases plain with rfl | rfl
    · rfl
    · rfl
  · rcases plain with rfl | rfl
    · exact nofun
    · exact nofun
  · intro h' other
    rw [unheld, here]
    exact (decide_eq_false other.symm).symm
  · intro h' other
    rw [open', here]
    rfl
  · rw [closers_goto_of_eq (by rw [open', here]; rfl)]
    refine .opened ?_ ?_ unclosed
    · rwa [(recount_table s _ _ _).1]
    · rw [(recount_table s _ _ _).1, recount_refct, word]
  · intro _
    omega
  · right
    omega
  · intro h' other word
    rw [here]
    rfl
  · intro old positive none
    refine ⟨i, ?_⟩
    rw [if_pos (by omega)] at next
    show (Function.update s.pc i p i).retires _ _ = true
    rw [Function.update_self, ← next]
    exact decide_eq_true rfl
  · rcases plain with rfl | rfl
    · refine ⟨young, .inr ?_⟩
      rw [(recount_table s _ _ _).1, (recount_table s _ _ _).2]
      exact ⟨key, fun _ => root⟩
    · trivial
  · rcases plain with rfl | rfl
    · exact nofun
    · exact nofun

/-- A thread takes the last reference of an old version. -/
theorem Inv.close (few : Fintype.card ι + 1 < 2 ^ 32) (inv : Inv writer s) {curVal : Nat}
    (here : s.pc i = .close v curVal)
    (same : (s.table v.tableEntry).refct = curVal) :
    Inv writer ((s.recount v.tableEntry (curVal - 1)).goto i (.free v)) := by
  have ok := inv.thread i
  rw [here] at ok
  obtain ⟨old, was, one⟩ := ok
  have counted : 0 < getRfct (s.table v.tableEntry).refct := by
    rw [same, one]
    exact Nat.one_pos
  obtain ⟨small, refct, unclosed⟩ := (inv.phase v.tableEntry).of_count counted
  obtain ⟨key, root⟩ := was.resolve_left fun gone => by omega
  have none : getRfct (curVal - 1) = 0 := by
    rw [getRfct_eq] at one ⊢
    omega
  have unheld : s.holders v.tableEntry = 0 := by
    have most : s.holders v.tableEntry ≤ Fintype.card ι := count_le s.pc
    rw [← same, refct, getRfct_makeRefct (by omega)] at one
    omega
  have entered : (s.goto i (.free v)).closers v.tableEntry = s.closers v.tableEntry + 1 :=
    closers_goto_enter (by rw [here]; rfl) (decide_eq_true rfl)
  apply inv.recount
  · rw [here]
    rfl
  · exact nofun
  · intro h' other
    rw [here]
    rfl
  · intro h' other
    rw [here]
    exact decide_eq_false other.symm
  · rw [holders_goto_of_eq (by rw [here]; rfl), entered, unclosed]
    refine .closed ?_ ?_ unheld rfl
    · rwa [(recount_table s _ _ _).1]
    · rw [recount_refct, none]
  · intro positive
    omega
  · left
    omega
  · intro h' other word
    rw [here]
    exact (Bool.and_eq_false_iff.mpr (.inl (decide_eq_false other.symm)))
  · intro _ positive
    omega
  · refine ⟨old, ?_, ?_⟩
    · rw [(recount_table s _ _ _).1, key]
    · rw [(recount_table s _ _ _).2, root counted]
  · exact nofun

/-- The thread that closes an entry takes its version out. -/
theorem Inv.leave (inv : Inv writer s) {p : Pc} {h : Index} {e : Entry}
    (closing : (s.pc i).closes h = true) (left : e.Leaves (s.table h))
    (old : (s.table h).key + 1 < s.currentTimestamp)
    (publishes : p.publishes = (s.pc i).publishes) (updates : p.updates = false)
    (timestamp : p.timestamp = none) (holds : ∀ h', p.holds h' = (s.pc i).holds h')
    (closes : ∀ h' ≠ h, p.closes h' = (s.pc i).closes h')
    (unretiring : ∀ h' word, (s.pc i).retires h' word = false)
    (phase : e.Phase ((s.goto i p).holders h) ((s.goto i p).closers h))
    (ok : p.Ok (Function.update s.table h e) s.currentTimestamp) :
    Inv writer ((s.store h e).goto i p) := by
  obtain ⟨small, uncounted, unheld, one⟩ := (inv.phase h).of_closers (count_pos closing)
  have here : ((s.store h e).goto i p).table h = e := Function.update_self ..
  have there : ∀ h' ≠ h, ((s.store h e).goto i p).table h' = s.table h' := fun h' other =>
    Function.update_of_ne other ..
  have fresh : ((s.store h e).goto i p).fresh writer = s.fresh writer :=
    fresh_goto (s := s.store h e) publishes
  refine ⟨inv.running, inv.clock, fun h' => ?_, fun h₁ h₂ same below => ?_, fun h' below => ?_,
    fun t young next => ?_, fun h' past counted free => ?_, fun j => ?_,
    forall_pc_update (P := fun j q => q.updates = true → j = writer) (fun h => by rw [updates] at h; cases h)
      inv.alone, fun t => ?_⟩
  · by_cases same : h' = h
    · subst same
      rw [here]
      exact phase
    · rw [there h' same]
      show (s.table h').Phase ((s.goto i p).holders h') ((s.goto i p).closers h')
      rw [holders_goto_of_eq (holds h'), closers_goto_of_eq (closes h' same)]
      exact inv.phase h'
  · -- a key below the tombstone is the one that was there
    have kept : ∀ h', (((s.store h e).goto i p).table h').key < tombstone →
        (((s.store h e).goto i p).table h').key = (s.table h').key := by
      intro h' below
      by_cases same : h' = h
      · subst same
        rw [here] at below ⊢
        exact left.key.resolve_right fun gone => by omega
      · rw [there h' same]
    have first := kept h₁ below
    have second := kept h₂ (same ▸ below)
    exact inv.distinct h₁ h₂ (by rw [← first, ← second, same]) (first ▸ below)
  · rw [fresh]
    by_cases same : h' = h
    · subst same
      rw [here] at below ⊢
      have kept := left.key.resolve_right fun gone => by omega
      rw [kept]
      exact inv.bound h' small
    · rw [there h' same] at below ⊢
      exact inv.bound h' below
  · rw [fresh] at young
    obtain ⟨h', found, positive⟩ := inv.live t young next
    have other : h' ≠ h := by
      rintro rfl
      omega
    exact ⟨h', by rw [there h' other, found], by rwa [there h' other]⟩
  · have other : h' ≠ h := by
      rintro rfl
      rw [here, left.uncounted] at counted
      omega
    rw [there h' other] at past counted ⊢
    have free : s.holders h' = 0 := by
      rw [← holders_goto_of_eq (holds h')]
      exact free
    obtain ⟨j, retiring⟩ := inv.retired h' past counted free
    have moved : j ≠ i := by
      rintro rfl
      rw [unretiring] at retiring
      cases retiring
    refine ⟨j, ?_⟩
    show (Function.update s.pc i p j).retires h' _ = true
    rwa [Function.update_of_ne moved]
  · by_cases same : j = i
    · subst same
      show (Function.update s.pc j p j).Ok _ _
      rwa [Function.update_self]
    · show (Function.update s.pc i p j).Ok _ _
      rw [Function.update_of_ne same]
      have none : (s.pc j).holds h = false := Bool.eq_false_iff.mpr (count_eq_zero.mp unheld j)
      refine (inv.thread j).leaves none (Bool.eq_false_iff.mpr fun also => same ?_) left
      exact (eq_of_count_eq_one one closing also).symm
  · exact forall_pc_update (P := fun k q => k = writer → t ∈ q.timestamp → t + 1 = _)
      (fun _ stamped => by rw [timestamp] at stamped; cases stamped)
      (fun k same => same ▸ inv.newest t) writer rfl

theorem Inv.clear (inv : Inv writer s) (here : s.pc i = .clear v) :
    Inv writer ((s.store v.tableEntry ⟨v.timestamp, 0, none⟩).goto i (.bury v)) := by
  have ok := inv.thread i
  rw [here] at ok
  obtain ⟨old, key⟩ := ok
  have closing : (s.pc i).closes v.tableEntry = true := by
    rw [here]
    exact decide_eq_true rfl
  obtain ⟨small, uncounted, unheld, one⟩ := (inv.phase _).of_closers (count_pos closing)
  apply inv.leave closing
  · exact ⟨.inl key.symm, getRfct_zero⟩
  · omega
  · rw [here]
    rfl
  · rfl
  · rfl
  · rw [here]
    exact fun _ => rfl
  · rw [here]
    exact fun _ _ => rfl
  · rw [here]
    exact fun _ _ => rfl
  · rw [holders_goto_of_eq (by rw [here]; rfl), closers_goto_of_eq (by rw [here]; rfl)]
    exact .closed (key ▸ small) getRfct_zero unheld one
  · rw [Pc.Ok, Function.update_self]
    exact ⟨old, rfl, rfl⟩

theorem Inv.bury (inv : Inv writer s) (here : s.pc i = .bury v) :
    Inv writer ((s.store v.tableEntry ⟨tombstone, 0, none⟩).goto i .idle) := by
  have ok := inv.thread i
  rw [here] at ok
  obtain ⟨old, key, root⟩ := ok
  have closing : (s.pc i).closes v.tableEntry = true := by
    rw [here]
    exact decide_eq_true rfl
  obtain ⟨small, uncounted, unheld, one⟩ := (inv.phase _).of_closers (count_pos closing)
  have last : (s.goto i .idle).closers v.tableEntry + 1 = s.closers v.tableEntry :=
    closers_goto_leave closing rfl
  apply inv.leave closing
  · exact ⟨.inr rfl, getRfct_zero⟩
  · omega
  · rw [here]
    rfl
  · rfl
  · rfl
  · rw [here]
    exact fun _ => rfl
  · intro h' other
    rw [here]
    exact (decide_eq_false other.symm).symm
  · rw [here]
    exact fun _ _ => rfl
  · rw [holders_goto_of_eq (by rw [here]; rfl)]
    exact .vacant le_rfl getRfct_zero rfl unheld (by omega)
  · trivial

/-- The writer fills an entry that no thread refers to. -/
theorem Inv.fill (inv : Inv writer s) {root : Option Nat} {h : Index}
    (here : s.pc writer = .insert v root h) (left : tombstone ≤ (s.table h).key)
    (unreferenced : ∀ j, (s.pc j).refers ≠ some h) :
    Inv writer ((s.store h ⟨s.currentTimestamp, makeRefct s.currentTimestamp 1, root⟩).goto writer
      (.publish v)) := by
  obtain ⟨uncounted, -, unheld, unclosed⟩ := (inv.phase h).of_vacant left
  have ok := inv.thread writer
  rw [here] at ok
  have other : v.tableEntry ≠ h := fun same => unreferenced writer (by rw [here, ← same]; rfl)
  have count : getRfct (makeRefct s.currentTimestamp 1) = 1 := getRfct_makeRefct (by decide)
  have before : s.fresh writer = s.currentTimestamp := by
    rw [State.fresh, here]
    rfl
  generalize filled : (s.store h ⟨s.currentTimestamp, makeRefct s.currentTimestamp 1, root⟩).goto writer
    (.publish v) = t
  have pc : t.pc = Function.update s.pc writer (.publish v) := by rw [← filled]; rfl
  have current : t.currentTimestamp = s.currentTimestamp := by rw [← filled]; rfl
  have at' : t.table h = ⟨s.currentTimestamp, makeRefct s.currentTimestamp 1, root⟩ := by
    rw [← filled]
    exact Function.update_self ..
  have there : ∀ h' ≠ h, t.table h' = s.table h' := by
    intro h' other
    rw [← filled]
    exact Function.update_of_ne other ..
  have after : t.fresh writer = s.currentTimestamp + 1 := by
    rw [State.fresh, pc, Function.update_self, current]
    rfl
  have holders : ∀ h', t.holders h' = s.holders h' := by
    intro h'
    rw [← filled]
    exact holders_goto_of_eq (s := s) (by rw [here]; rfl)
  have closers : ∀ h', t.closers h' = s.closers h' := by
    intro h'
    rw [← filled]
    exact closers_goto_of_eq (s := s) (by rw [here]; rfl)
  refine ⟨?_, ?_, fun h' => ?_, fun h₁ h₂ same below => ?_, fun h' below => ?_,
    fun t' young next => ?_, fun h' past counted free => ?_, fun j => ?_, fun j => ?_, fun t' => ?_⟩
  · rw [← filled]
    exact inv.running
  · rw [current]
    exact inv.clock
  · rw [holders, closers]
    by_cases same : h' = h
    · subst same
      rw [at', unheld]
      exact .opened inv.clock.2 rfl unclosed
    · rw [there h' same]
      exact inv.phase h'
  · have young : ∀ h' ≠ h, (t.table h').key < tombstone → (t.table h').key < s.currentTimestamp := by
      intro h' other below
      rw [there h' other] at below ⊢
      exact before ▸ inv.bound h' below
    by_cases first : h₁ = h
    · by_cases second : h₂ = h
      · rw [first, second]
      · have := young h₂ second (same ▸ below)
        rw [← same, first, at'] at this
        exact absurd this (Nat.lt_irrefl _)
    · by_cases second : h₂ = h
      · have := young h₁ first below
        rw [same, second, at'] at this
        exact absurd this (Nat.lt_irrefl _)
      · rw [there h₁ first] at same below
        rw [there h₂ second] at same
        exact inv.distinct h₁ h₂ same below
  · rw [after]
    by_cases same : h' = h
    · rw [same, at']
      exact Nat.lt_succ_self _
    · rw [there h' same] at below ⊢
      exact Nat.lt_succ_of_lt (before ▸ inv.bound h' below)
  · rw [after] at young
    rw [current] at next
    rcases Nat.lt_succ_iff_lt_or_eq.mp young with less | rfl
    · obtain ⟨h', found, positive⟩ := inv.live t' (before ▸ less) next
      have other : h' ≠ h := by
        rintro rfl
        omega
      exact ⟨h', by rw [there h' other, found], by rwa [there h' other]⟩
    · exact ⟨h, by rw [at'], by rw [at', count]; exact Nat.one_pos⟩
  · rw [current] at past
    have other : h' ≠ h := by
      rintro rfl
      rw [at'] at past
      exact absurd past (by simp)
    rw [there h' other] at past counted ⊢
    rw [holders] at free
    obtain ⟨j, retiring⟩ := inv.retired h' past counted free
    have moved : j ≠ writer := by
      rintro rfl
      rw [here] at retiring
      cases retiring
    exact ⟨j, by rwa [pc, Function.update_of_ne moved]⟩
  · rw [pc, current]
    refine forall_pc_update (s := s) (P := fun _ q => q.Ok t.table s.currentTimestamp) ?_ (fun j => ?_) j
    · exact ⟨ok.1, by rw [there _ other]; exact ok.2⟩
    · apply (inv.thread j).recounts
      intro h' refers
      have other : h' ≠ h := by
        rintro rfl
        exact unreferenced j refers
      rw [there h' other]
      exact Entry.Recounts.refl _
  · rw [pc]
    exact forall_pc_update (s := s) (P := fun j q => q.updates = true → j = writer) (fun _ => rfl)
      inv.alone j
  · rw [pc, current, Function.update_self]
    rintro ⟨⟩
    exact inv.newest v.timestamp (by rw [here]; rfl)

/-- The writer makes the new version visible. -/
theorem Inv.publish (inv : Inv writer s) (here : s.pc writer = .publish v)
    (room : s.currentTimestamp + 1 < tombstone) :
    Inv writer { s.goto writer (.release v) with
      currentTimestamp := (s.currentTimestamp + 1) % 2 ^ 32 } := by
  have ok := inv.thread writer
  rw [here] at ok
  obtain ⟨young, key, root⟩ := ok
  have newest : v.timestamp + 1 = s.currentTimestamp := inv.newest _ (by rw [here]; rfl)
  have small : (s.currentTimestamp + 1) % 2 ^ 32 = s.currentTimestamp + 1 :=
    Nat.mod_eq_of_lt (room.trans (by decide))
  have before : s.fresh writer = s.currentTimestamp + 1 := by
    rw [State.fresh, here]
    rfl
  rw [small]
  generalize shown : ({ s.goto writer (.release v) with
    currentTimestamp := s.currentTimestamp + 1 } : State ι) = t
  have pc : t.pc = Function.update s.pc writer (.release v) := by rw [← shown]; rfl
  have current : t.currentTimestamp = s.currentTimestamp + 1 := by rw [← shown]
  have table : t.table = s.table := by rw [← shown]; rfl
  have after : t.fresh writer = s.currentTimestamp + 1 := by
    rw [State.fresh, pc, Function.update_self, current]
    rfl
  have holders : ∀ h', t.holders h' = s.holders h' := by
    intro h'
    rw [← shown]
    exact holders_goto_of_eq (s := s) (by rw [here]; rfl)
  have closers : ∀ h', t.closers h' = s.closers h' := by
    intro h'
    rw [← shown]
    exact closers_goto_of_eq (s := s) (by rw [here]; rfl)
  refine ⟨?_, ?_, fun h => ?_, ?_, fun h => ?_, fun t' young next => ?_, fun h past counted free => ?_,
    fun j => ?_, fun j => ?_, fun t' => ?_⟩
  · rw [← shown]
    exact inv.running
  · rw [current]
    exact ⟨Nat.succ_pos _, room⟩
  · rw [holders, closers, table]
    exact inv.phase h
  · rw [table]
    exact inv.distinct
  · rw [table, after, ← before]
    exact inv.bound h
  · rw [after] at young
    rw [current] at next
    rw [table]
    exact inv.live t' (before ▸ young) (by omega)
  · rw [current] at past
    rw [table] at past counted ⊢
    rw [holders] at free
    -- the version that was the latest is held by the writer
    have other : (s.table h).key ≠ v.timestamp := by
      intro same
      have entry : v.tableEntry = h := by
        apply inv.distinct _ _ (key.trans same.symm)
        rw [key]
        exact young.trans inv.clock.2
      have held : 0 < s.holders h := count_pos (i := writer) (by rw [here]; exact decide_eq_true entry)
      omega
    obtain ⟨j, retiring⟩ := inv.retired h (by omega) counted free
    have moved : j ≠ writer := by
      rintro rfl
      rw [here] at retiring
      cases retiring
    exact ⟨j, by rwa [pc, Function.update_of_ne moved]⟩
  · rw [pc, current, table]
    exact forall_pc_update (s := s) (p := .release v)
      (P := fun _ q => q.Ok s.table (s.currentTimestamp + 1))
      ⟨young.trans (Nat.lt_succ_self _), key, root⟩
      (fun j => (inv.thread j).later (Nat.le_succ _)) j
  · rw [pc]
    exact forall_pc_update (s := s) (P := fun j q => q.updates = true → j = writer) (fun _ => rfl)
      inv.alone j
  · rw [pc, Function.update_self]
    rintro ⟨⟩

end Steps

section Roots

variable {writer : ι} {s t : State ι} {i : ι} {v : Version}

omit [Fintype ι] [DecidableEq ι] in
theorem owns_eq (root : ∀ h, (t.table h).root = (s.table h).root)
    (pending : (t.pc writer).pending = (s.pc writer).pending)
    (freed : ∀ j, (t.pc j).freed = (s.pc j).freed) : t.Owns writer = s.Owns writer := by
  funext o r
  cases o with
  | none =>
    rw [State.Owns, pending]
    rfl
  | some h =>
    rw [State.Owns, root]
    simp only [freed]
    rfl

omit [Fintype ι] [DecidableEq ι] in
theorem Rooted.of_owns_eq (rooted : Rooted writer s) (refCnt : t.refCnt = s.refCnt)
    (built : t.built = s.built) (owns : t.Owns writer = s.Owns writer) : Rooted writer t := by
  constructor
  · rw [refCnt, built, owns]
    exact rooted.counted
  · rw [owns]
    exact rooted.alone
  · rw [refCnt, owns]
    exact rooted.owned

omit [Fintype ι] in
theorem Rooted.move (rooted : Rooted writer s) {p : Pc} (pending : p.pending = (s.pc i).pending)
    (freed : p.freed = (s.pc i).freed) : Rooted writer (s.goto i p) :=
  rooted.of_owns_eq rfl rfl
    (owns_eq (fun _ => rfl) (update_pc_eq pending writer) (update_pc_eq freed))

omit [Fintype ι] in
theorem Rooted.recount (rooted : Rooted writer s) {p : Pc} {h : Index} {refct : Nat}
    (pending : p.pending = (s.pc i).pending) (freed : p.freed = (s.pc i).freed) :
    Rooted writer ((s.recount h refct).goto i p) :=
  rooted.of_owns_eq rfl rfl
    (owns_eq (fun h' => (recount_table s h refct h').2) (update_pc_eq pending writer)
      (update_pc_eq freed))

omit [DecidableEq ι] in
/-- The root of a version that is about to be freed belongs to its entry. -/
theorem Inv.owns_free (inv : Inv writer s) (here : s.pc i = .free v) {r : Nat}
    (root : v.root = some r) : s.Owns writer (some v.tableEntry) r := by
  have ok := inv.thread i
  rw [here] at ok
  have closing : (s.pc i).closes v.tableEntry = true := by
    rw [here]
    exact decide_eq_true rfl
  obtain ⟨-, -, -, one⟩ := (inv.phase _).of_closers (count_pos closing)
  refine ⟨ok.2.2.trans root, fun j freed => ?_⟩
  have also : (s.pc j).closes v.tableEntry = true := by
    cases other : s.pc j with
    | clear w =>
      rw [other] at freed
      exact decide_eq_true (Option.some.inj freed)
    | _ =>
      rw [other] at freed
      cases freed
  obtain rfl := eq_of_count_eq_one one closing also
  rw [here] at freed
  cases freed

omit [Fintype ι] in
theorem owns_goto_clear (here : s.pc i = .free v) {o : Option Index} {r : Nat} :
    (s.goto i (.clear v)).Owns writer o r ↔ s.Owns writer o r ∧ o ≠ some v.tableEntry := by
  cases o with
  | none =>
    show (Function.update s.pc i (.clear v) writer).pending = some r ↔ _
    rw [update_pc_eq (f := Pc.pending) (by rw [here]; rfl)]
    exact ⟨fun owned => ⟨owned, nofun⟩, And.left⟩
  | some h =>
    constructor
    · rintro ⟨root, freed⟩
      refine ⟨⟨root, fun j same => ?_⟩, fun same => ?_⟩
      · have other : j ≠ i := by
          rintro rfl
          rw [here] at same
          cases same
        exact freed j (by rwa [goto_pc, Function.update_of_ne other])
      · exact freed i (by rw [goto_pc, Function.update_self, same]; rfl)
    · rintro ⟨⟨root, freed⟩, other⟩
      exact ⟨root, forall_pc_update (P := fun _ q => q.freed ≠ some h) other.symm freed⟩

/-- A version without a graph has nothing to free. -/
theorem Rooted.free_none (inv : Inv writer s) (rooted : Rooted writer s) (here : s.pc i = .free v)
    (root : v.root = none) : Rooted writer (s.goto i (.clear v)) := by
  have ok := inv.thread i
  rw [here] at ok
  refine rooted.of_owns_eq (t := s.goto i (.clear v)) rfl rfl ?_
  funext o r
  rw [eq_iff_iff, owns_goto_clear here, and_iff_left_iff_imp]
  rintro owns rfl
  rw [State.Owns, ok.2.2, root] at owns
  exact nomatch owns.1

theorem Rooted.free_some (inv : Inv writer s) (rooted : Rooted writer s) (here : s.pc i = .free v)
    {r : Nat} (root : v.root = some r) :
    Rooted writer { s.goto i (.clear v) with refCnt := Function.update s.refCnt r 0 } := by
  have owner := inv.owns_free here root
  have owns : ∀ o r', State.Owns { s.goto i (.clear v) with refCnt := Function.update s.refCnt r 0 }
      writer o r' ↔ s.Owns writer o r' ∧ o ≠ some v.tableEntry := fun o r' =>
    owns_goto_clear here
  have other : ∀ o r', s.Owns writer o r' → o ≠ some v.tableEntry → r' ≠ r := by
    rintro o r' owned distinct rfl
    exact distinct (rooted.alone o _ r' owned owner)
  refine ⟨fun o r' owned => ?_, fun o o' r' first second => ?_, fun r' present => ?_⟩
  · obtain ⟨owned, distinct⟩ := (owns o r').mp owned
    show Function.update s.refCnt r 0 r' = 1 ∧ r' < s.built
    rw [Function.update_of_ne (other o r' owned distinct)]
    exact rooted.counted o r' owned
  · exact rooted.alone o o' r' ((owns o r').mp first).1 ((owns o' r').mp second).1
  · have present : Function.update s.refCnt r 0 r' ≠ 0 := present
    have distinct : r' ≠ r := by
      rintro rfl
      rw [Function.update_self] at present
      exact present rfl
    rw [Function.update_of_ne distinct] at present
    obtain ⟨o, owned⟩ := rooted.owned r' present
    refine ⟨o, (owns o r').mpr ⟨owned, ?_⟩⟩
    rintro rfl
    exact distinct (Option.some.inj (owned.1.symm.trans owner.1))

omit [Fintype ι] in
theorem Rooted.clear (rooted : Rooted writer s) (here : s.pc i = .clear v) (e : Entry)
    (root : e.root = none) : Rooted writer ((s.store v.tableEntry e).goto i (.bury v)) := by
  refine rooted.of_owns_eq (t := (s.store v.tableEntry e).goto i (.bury v)) rfl rfl ?_
  funext o r
  cases o with
  | none =>
    show ((Function.update s.pc i (.bury v) writer).pending = some r) = _
    rw [update_pc_eq (f := Pc.pending) (by rw [here]; rfl)]
    rfl
  | some h =>
    show ((Function.update s.table v.tableEntry e h).root = some r ∧
      ∀ j, (Function.update s.pc i (.bury v) j).freed ≠ some h) = _
    by_cases same : h = v.tableEntry
    · subst same
      rw [Function.update_self, root]
      apply propext
      constructor
      · rintro ⟨⟨⟩, -⟩
      · exact fun owned => absurd (by rw [here]; rfl) (owned.2 i)
    · rw [Function.update_of_ne same, State.Owns, eq_iff_iff]
      refine and_congr_right fun _ => ⟨fun freed j => ?_, fun freed => ?_⟩
      · by_cases moved : j = i
        · rw [moved, here]
          exact fun other => same (Option.some.inj other).symm
        · have := freed j
          rwa [Function.update_of_ne moved] at this
      · exact forall_pc_update (P := fun _ q => q.freed ≠ some h) nofun freed

omit [Fintype ι] in
theorem Rooted.bury (rooted : Rooted writer s) (here : s.pc i = .bury v) (e : Entry)
    (before : (s.table v.tableEntry).root = none) (root : e.root = none) :
    Rooted writer ((s.store v.tableEntry e).goto i .idle) := by
  refine rooted.of_owns_eq (t := (s.store v.tableEntry e).goto i .idle) rfl rfl ?_
  refine owns_eq (fun h => ?_) (update_pc_eq (s := s) (by rw [here]; rfl) writer)
    (update_pc_eq (s := s) (by rw [here]; rfl))
  show (Function.update s.table v.tableEntry e h).root = _
  by_cases same : h = v.tableEntry
  · rw [same, Function.update_self, root, before]
  · rw [Function.update_of_ne same]

omit [Fintype ι] in
theorem Rooted.fill (rooted : Rooted writer s) {root : Option Nat} {h : Index}
    (here : s.pc writer = .insert v root h) (left : (s.table h).root = none)
    (unreferenced : ∀ j, (s.pc j).refers ≠ some h) {e : Entry} (filled : e.root = root) :
    Rooted writer ((s.store h e).goto writer (.publish v)) := by
  have unfreed : ∀ j, (s.pc j).freed ≠ some h := by
    intro j freed
    cases other : s.pc j with
    | clear w =>
      rw [other] at freed
      exact unreferenced j (by rw [other]; exact freed)
    | _ =>
      rw [other] at freed
      cases freed
  -- what the writer had goes to the entry
  have owns : ∀ o r, ((s.store h e).goto writer (.publish v)).Owns writer o r →
      (o = some h ∧ s.Owns writer none r) ∨ (o ≠ none ∧ o ≠ some h ∧ s.Owns writer o r) := by
    rintro (_ | h') r owned
    · have owned : (Function.update s.pc writer (.publish v) writer).pending = some r := owned
      rw [Function.update_self] at owned
      cases owned
    · obtain ⟨here', freed⟩ := owned
      have here' : (Function.update s.table h e h').root = some r := here'
      have freed : ∀ j, (s.pc j).freed ≠ some h' := by
        intro j
        have unfreed : (Function.update s.pc writer (.publish v) j).freed ≠ some h' := freed j
        rwa [update_pc_eq (f := Pc.freed) (by rw [here]; rfl)] at unfreed
      by_cases same : h' = h
      · subst same
        rw [Function.update_self, filled] at here'
        refine .inl ⟨rfl, ?_⟩
        rw [State.Owns, here]
        exact here'
      · rw [Function.update_of_ne same] at here'
        exact .inr ⟨nofun, fun equal => same (Option.some.inj equal), here', freed⟩
  refine ⟨fun o r owned => ?_, fun o o' r first second => ?_, fun r present => ?_⟩
  · rcases owns o r owned with ⟨-, owned⟩ | ⟨-, -, owned⟩
    · exact rooted.counted none r owned
    · exact rooted.counted o r owned
  · rcases owns o r first with ⟨here, owned⟩ | ⟨there, -, owned⟩
    · rcases owns o' r second with ⟨here', -⟩ | ⟨there, -, owned'⟩
      · rw [here, here']
      · exact absurd (rooted.alone _ _ r owned owned').symm there
    · rcases owns o' r second with ⟨-, owned'⟩ | ⟨-, -, owned'⟩
      · exact absurd (rooted.alone _ _ r owned owned') there
      · exact rooted.alone _ _ r owned owned'
  · obtain ⟨o, owned⟩ := rooted.owned r present
    have freed : ∀ h', (∀ j, (s.pc j).freed ≠ some h') →
        ∀ j, (Function.update s.pc writer (.publish v) j).freed ≠ some h' := fun h' unfreed =>
      forall_pc_update (P := fun _ q => q.freed ≠ some h') nofun unfreed
    cases o with
    | none =>
      rw [State.Owns, here] at owned
      refine ⟨some h, ?_, freed h unfreed⟩
      show (Function.update s.table h e h).root = some r
      rw [Function.update_self, filled]
      exact owned
    | some h' =>
      have other : h' ≠ h := by
        rintro rfl
        have := owned.1
        rw [left] at this
        cases this
      refine ⟨some h', ?_, freed h' owned.2⟩
      show (Function.update s.table h e h').root = some r
      rw [Function.update_of_ne other]
      exact owned.1

omit [Fintype ι] in
/-- A new root belongs to the writer. -/
theorem Rooted.build (rooted : Rooted writer s) (here : s.pc writer = .hold v) (h : Index) :
    Rooted writer { s.goto writer (.insert v (some s.built) h) with
      refCnt := Function.update s.refCnt s.built 1
      built := s.built + 1 } := by
  have owns : ∀ o r, State.Owns { s.goto writer (.insert v (some s.built) h) with
      refCnt := Function.update s.refCnt s.built 1
      built := s.built + 1 } writer o r ↔
        (o = none ∧ r = s.built) ∨ (o ≠ none ∧ s.Owns writer o r) := by
    rintro (_ | h') r
    · show (Function.update s.pc writer (.insert v (some s.built) h) writer).pending = some r ↔ _
      rw [Function.update_self]
      constructor
      · rintro ⟨⟩
        exact .inl ⟨rfl, rfl⟩
      · rintro (⟨-, rfl⟩ | ⟨some, -⟩)
        · rfl
        · exact absurd rfl some
    · show ((s.table h').root = some r ∧
        ∀ j, (Function.update s.pc writer (.insert v (some s.built) h) j).freed ≠ some h') ↔ _
      simp only [update_pc_eq (s := s) (f := Pc.freed) (p := .insert v (some s.built) h)
        (show _ = (s.pc writer).freed by rw [here]; rfl)]
      constructor
      · exact fun owned => .inr ⟨nofun, owned⟩
      · rintro (⟨⟨⟩, -⟩ | ⟨-, owned⟩)
        exact owned
  have older : ∀ o r, s.Owns writer o r → r ≠ s.built := fun o r owned =>
    (rooted.counted o r owned).2.ne
  refine ⟨fun o r owned => ?_, fun o o' r first second => ?_, fun r present => ?_⟩
  · show Function.update s.refCnt s.built 1 r = 1 ∧ r < s.built + 1
    rcases (owns o r).mp owned with ⟨rfl, rfl⟩ | ⟨-, owned⟩
    · exact ⟨Function.update_self .., Nat.lt_succ_self _⟩
    · rw [Function.update_of_ne (older o r owned)]
      obtain ⟨one, less⟩ := rooted.counted o r owned
      exact ⟨one, Nat.lt_succ_of_lt less⟩
  · rcases (owns o r).mp first with ⟨rfl, rfl⟩ | ⟨-, first⟩
    · rcases (owns o' _).mp second with ⟨rfl, -⟩ | ⟨-, second⟩
      · rfl
      · exact absurd rfl (older o' _ second)
    · rcases (owns o' r).mp second with ⟨rfl, rfl⟩ | ⟨-, second⟩
      · exact absurd rfl (older o _ first)
      · exact rooted.alone o o' r first second
  · have present : Function.update s.refCnt s.built 1 r ≠ 0 := present
    by_cases new : r = s.built
    · exact ⟨none, (owns none r).mpr (.inl ⟨rfl, new⟩)⟩
    · rw [Function.update_of_ne new] at present
      obtain ⟨o, owned⟩ := rooted.owned r present
      have some : o ≠ none := by
        rintro rfl
        rw [State.Owns, here] at owned
        cases owned
      exact ⟨o, (owns o r).mpr (.inr ⟨some, owned⟩)⟩

end Roots

end Zeppelin.Aspen.VersionedGraph
