import Zeppelin.Aspen.VersionedGraph
import Zeppelin.Machine.Threads

/-! The invariant of the versions. A table entry is opened for a version, counted
by the threads that hold it, closed by one thread when a newer version is there,
and then left to another version. -/
namespace Zeppelin.Aspen.VersionedGraph

open Threads

theorem getRfct_eq (word : Nat) : getRfct word = word % 2 ^ 32 :=
  Nat.and_two_pow_sub_one_eq_mod word 32

theorem getRfct_zero : getRfct 0 = 0 := Nat.zero_and _

theorem makeRefct_eq {ts ct : Nat} (small : ct < 2 ^ 32) : makeRefct ts ct = ts * 2 ^ 32 + ct := by
  rw [makeRefct, ← Nat.shiftLeft_add_eq_or_of_lt small, Nat.shiftLeft_eq]

theorem getRfct_makeRefct {ts ct : Nat} (small : ct < 2 ^ 32) : getRfct (makeRefct ts ct) = ct := by
  rw [makeRefct_eq small, getRfct_eq]
  omega

theorem makeRefct_succ {ts ct : Nat} (key : ts < 2 ^ 32) (small : ct + 1 < 2 ^ 32) :
    (makeRefct ts ct + 1) % 2 ^ 64 = makeRefct ts (ct + 1) := by
  rw [makeRefct_eq (by omega), makeRefct_eq small]
  omega

theorem makeRefct_pred {ts ct : Nat} (key : ts < 2 ^ 32) (small : ct + 1 < 2 ^ 32) :
    (makeRefct ts (ct + 1) + (2 ^ 64 - 1)) % 2 ^ 64 = makeRefct ts ct := by
  rw [makeRefct_eq small, makeRefct_eq (Nat.lt_of_succ_lt small)]
  omega

namespace Pc

/-- The thread is counted in the entry. -/
def holds (h : Index) : Pc → Bool
  | readRoot tableRef _ => tableRef = h
  | hold v | insert v _ _ | publish v | release v => v.tableEntry = h
  | _ => false

/-- The thread took the last reference of the entry. -/
def closes (h : Index) : Pc → Bool
  | free v | clear v | bury v => v.tableEntry = h
  | _ => false

/-- The thread may still take the last reference of the entry, while its word
stays as it is. -/
def retires (h : Index) (refct : Nat) : Pc → Bool
  | checkLatest v | reread v => v.tableEntry = h
  | close v curVal => v.tableEntry = h && curVal = refct
  | _ => false

/-- The entry that the thread keeps a pointer to. -/
def refers : Pc → Option Index
  | check _ h | load _ h | readTs _ h _ | swap _ h _ _ | readRoot h _ => some h
  | hold v | insert v _ _ | publish v | release v | checkLatest v | reread v | close v _ | free v
  | clear v | bury v => some v.tableEntry
  | idle | acquire | find .. => none

def updates : Pc → Bool
  | insert .. | publish _ => true
  | _ => false

def publishes : Pc → Bool
  | publish _ => true
  | _ => false

/-- The root that the writer has not put into the table. -/
def pending : Pc → Option Nat
  | insert _ root _ => root
  | _ => none

/-- The entry whose root was freed and is still in it. -/
def freed : Pc → Option Index
  | clear v => some v.tableEntry
  | _ => none

/-- The timestamp that the writer works on. -/
def timestamp : Pc → Option Nat
  | find ts _ | check ts _ | load ts _ | readTs ts _ _ | swap ts _ _ _ | readRoot _ ts => some ts
  | hold v | insert v _ _ | publish v => some v.timestamp
  | _ => none

end Pc

/-- The entry was found for the timestamp. -/
def Entry.Found (e : Entry) (ts : Nat) : Prop := e.key = ts ∨ e.key = tombstone

/-- The entry is the one of the version. -/
def Entry.Is (e : Entry) (v : Version) : Prop := e.key = v.timestamp ∧ e.root = v.root

/-- The entry is still the one of the version, or is left. -/
def Entry.Was (e : Entry) (v : Version) : Prop :=
  e.key = tombstone ∨ e.key = v.timestamp ∧ (0 < getRfct e.refct → e.root = v.root)

/-- What a thread can rely on. -/
def Pc.Ok (table : Index → Entry) (current : Nat) : Pc → Prop
  | .idle | .acquire => True
  | .find ts _ => ts < current
  | .check ts h | .load ts h | .readTs ts h _ => ts < current ∧ (table h).Found ts
  | .swap ts h refctAndTs key => ts < current ∧ (table h).Found ts ∧
      (key = ts ∨ (table h).key = tombstone) ∧ 0 < getRfct refctAndTs
  | .readRoot h ts => ts < current ∧ (table h).key = ts
  | .hold v | .insert v _ _ | .publish v | .release v =>
      v.timestamp < current ∧ (table v.tableEntry).Is v
  | .checkLatest v => v.timestamp < current ∧ (table v.tableEntry).Was v
  | .reread v => v.timestamp + 1 < current ∧ (table v.tableEntry).Was v
  | .close v curVal =>
      v.timestamp + 1 < current ∧ (table v.tableEntry).Was v ∧ getRfct curVal = 1
  | .free v => v.timestamp + 1 < current ∧ (table v.tableEntry).Is v
  | .clear v => v.timestamp + 1 < current ∧ (table v.tableEntry).key = v.timestamp
  | .bury v => v.timestamp + 1 < current ∧ (table v.tableEntry).key = v.timestamp ∧
      (table v.tableEntry).root = none

/-- An entry with the threads that hold it and that close it. -/
inductive Entry.Phase (e : Entry) (holders closers : Nat) : Prop
  | opened (key : e.key < tombstone) (refct : e.refct = makeRefct e.key (1 + holders))
      (open' : closers = 0)
  | closed (key : e.key < tombstone) (refct : getRfct e.refct = 0) (unheld : holders = 0)
      (one : closers = 1)
  | vacant (key : tombstone ≤ e.key) (refct : getRfct e.refct = 0) (root : e.root = none)
      (unheld : holders = 0) (open' : closers = 0)

variable {ι : Type} [Fintype ι] [DecidableEq ι]

namespace State

def holders (s : State ι) (h : Index) : Nat := count (fun p => p.holds h = true) s.pc

def closers (s : State ι) (h : Index) : Nat := count (fun p => p.closes h = true) s.pc

/-- The timestamp that the writer inserts next. -/
def fresh (s : State ι) (writer : ι) : Nat :=
  if (s.pc writer).publishes then s.currentTimestamp + 1 else s.currentTimestamp

/-- A root belongs to an entry, or to the writer when it is not in the table. -/
def Owns (s : State ι) (writer : ι) : Option Index → Nat → Prop
  | some h, r => (s.table h).root = some r ∧ ∀ i, (s.pc i).freed ≠ some h
  | none, r => (s.pc writer).pending = some r

end State

/-- Every root has one owner while it is there. -/
structure Rooted (writer : ι) (s : State ι) : Prop where
  counted : ∀ o r, s.Owns writer o r → s.refCnt r = 1 ∧ r < s.built
  alone : ∀ o o' r, s.Owns writer o r → s.Owns writer o' r → o = o'
  owned : ∀ r, s.refCnt r ≠ 0 → ∃ o, s.Owns writer o r

structure Inv (writer : ι) (s : State ι) : Prop where
  running : s.exited = false
  clock : 0 < s.currentTimestamp ∧ s.currentTimestamp < tombstone
  phase : ∀ h, (s.table h).Phase (s.holders h) (s.closers h)
  distinct : ∀ h h', (s.table h).key = (s.table h').key → (s.table h).key < tombstone → h = h'
  bound : ∀ h, (s.table h).key < tombstone → (s.table h).key < s.fresh writer
  live : ∀ t, t < s.fresh writer → s.currentTimestamp ≤ t + 1 →
    ∃ h, (s.table h).key = t ∧ 0 < getRfct (s.table h).refct
  retired : ∀ h, (s.table h).key + 1 < s.currentTimestamp → 0 < getRfct (s.table h).refct →
    s.holders h = 0 → ∃ i, (s.pc i).retires h (s.table h).refct = true
  thread : ∀ i, (s.pc i).Ok s.table s.currentTimestamp
  alone : ∀ i, (s.pc i).updates = true → i = writer
  newest : ∀ t ∈ (s.pc writer).timestamp, t + 1 = s.currentTimestamp

section Entries

variable {e e' : Entry} {holders closers : Nat}

theorem Entry.Phase.of_holders (phase : e.Phase holders closers) (held : 0 < holders) :
    e.key < tombstone ∧ e.refct = makeRefct e.key (1 + holders) ∧ closers = 0 := by
  cases phase with
  | opened key refct open' => exact ⟨key, refct, open'⟩
  | closed key refct unheld one => omega
  | vacant key refct root unheld open' => omega

theorem Entry.Phase.of_count (phase : e.Phase holders closers) (counted : 0 < getRfct e.refct) :
    e.key < tombstone ∧ e.refct = makeRefct e.key (1 + holders) ∧ closers = 0 := by
  cases phase with
  | opened key refct open' => exact ⟨key, refct, open'⟩
  | closed key refct unheld one => omega
  | vacant key refct root unheld open' => omega

theorem Entry.Phase.of_closers (phase : e.Phase holders closers) (closing : 0 < closers) :
    e.key < tombstone ∧ getRfct e.refct = 0 ∧ holders = 0 ∧ closers = 1 := by
  cases phase with
  | opened key refct open' => omega
  | closed key refct unheld one => exact ⟨key, refct, unheld, one⟩
  | vacant key refct root unheld open' => omega

theorem Entry.Phase.of_vacant (phase : e.Phase holders closers) (left : tombstone ≤ e.key) :
    getRfct e.refct = 0 ∧ e.root = none ∧ holders = 0 ∧ closers = 0 := by
  cases phase with
  | opened key refct open' => omega
  | closed key refct unheld one => omega
  | vacant key refct root unheld open' => exact ⟨refct, root, unheld, open'⟩

/-- The same version in the entry, with another count. -/
structure Entry.Recounts (e' e : Entry) : Prop where
  key : e'.key = e.key
  root : e'.root = e.root
  counted : 0 < getRfct e'.refct → 0 < getRfct e.refct

theorem Entry.Recounts.refl (e : Entry) : e.Recounts e := ⟨rfl, rfl, id⟩

theorem Entry.Found.recounts {ts : Nat} (found : e.Found ts) (again : e'.Recounts e) :
    e'.Found ts := by
  rw [Entry.Found, again.key]
  exact found

theorem Entry.Is.recounts {v : Version} (same : e.Is v) (again : e'.Recounts e) : e'.Is v :=
  ⟨again.key.trans same.1, again.root.trans same.2⟩

theorem Entry.Was.recounts {v : Version} (was : e.Was v) (again : e'.Recounts e) : e'.Was v := by
  rw [Entry.Was, again.key, again.root]
  exact was.imp id fun here => ⟨here.1, fun counted => here.2 (again.counted counted)⟩

/-- The version leaves the entry. -/
structure Entry.Leaves (e' e : Entry) : Prop where
  key : e'.key = e.key ∨ e'.key = tombstone
  uncounted : getRfct e'.refct = 0

theorem Entry.Found.leaves {ts : Nat} (found : e.Found ts) (left : e'.Leaves e) : e'.Found ts := by
  rcases left.key with same | gone
  · rw [Entry.Found, same]
    exact found
  · exact .inr gone

theorem Entry.Was.leaves {v : Version} (was : e.Was v) (left : e'.Leaves e) : e'.Was v := by
  have uncounted : 0 < getRfct e'.refct → e'.root = v.root := by
    rw [left.uncounted]
    exact fun less => absurd less (Nat.lt_irrefl 0)
  rcases left.key with same | gone
  · rw [Entry.Was, same]
    exact was.imp id fun here => ⟨here.1, uncounted⟩
  · exact .inl gone

end Entries

namespace Pc

variable {p : Pc} {table table' : Index → Entry} {current : Nat}

theorem Ok.recounts (ok : p.Ok table current)
    (again : ∀ h ∈ p.refers, (table' h).Recounts (table h)) : p.Ok table' current := by
  cases p with
  | idle | acquire => trivial
  | find ts h => exact ok
  | check ts h | load ts h | readTs ts h word => exact ⟨ok.1, ok.2.recounts (again h rfl)⟩
  | swap ts h word key =>
    refine ⟨ok.1, ok.2.1.recounts (again h rfl), ?_, ok.2.2.2⟩
    rw [(again h rfl).key]
    exact ok.2.2.1
  | readRoot h ts => exact ⟨ok.1, (again h rfl).key.trans ok.2⟩
  | hold v | insert v root h | publish v | release v | free v =>
    exact ⟨ok.1, ok.2.recounts (again _ rfl)⟩
  | checkLatest v | reread v => exact ⟨ok.1, ok.2.recounts (again _ rfl)⟩
  | close v curVal => exact ⟨ok.1, ok.2.1.recounts (again _ rfl), ok.2.2⟩
  | clear v => exact ⟨ok.1, (again _ rfl).key.trans ok.2⟩
  | bury v => exact ⟨ok.1, (again _ rfl).key.trans ok.2.1, (again _ rfl).root.trans ok.2.2⟩

/-- A thread that neither holds nor closes an entry can see its version leave. -/
theorem Ok.leaves {h : Index} {e : Entry} (ok : p.Ok table current) (unheld : p.holds h = false)
    (unclosed : p.closes h = false) (left : e.Leaves (table h)) :
    p.Ok (Function.update table h e) current := by
  by_cases here : p.refers = some h
  · have same : Function.update table h e h = e := Function.update_self ..
    cases p with
    | idle | acquire => trivial
    | find ts h' => exact ok
    | check ts h' | load ts h' | readTs ts h' word =>
      obtain rfl : h' = h := Option.some.inj here
      rw [Pc.Ok, same]
      exact ⟨ok.1, ok.2.leaves left⟩
    | swap ts h' word key =>
      obtain rfl : h' = h := Option.some.inj here
      rw [Pc.Ok, same]
      refine ⟨ok.1, ok.2.1.leaves left, ?_, ok.2.2.2⟩
      rcases left.key with stays | gone
      · rw [stays]
        exact ok.2.2.1
      · exact .inr gone
    | checkLatest v | reread v =>
      obtain rfl : v.tableEntry = h := Option.some.inj here
      rw [Pc.Ok, same]
      exact ⟨ok.1, ok.2.leaves left⟩
    | close v curVal =>
      obtain rfl : v.tableEntry = h := Option.some.inj here
      rw [Pc.Ok, same]
      exact ⟨ok.1, ok.2.1.leaves left, ok.2.2⟩
    | readRoot h' ts => exact absurd (Option.some.inj here) (of_decide_eq_false unheld)
    | hold v | insert v root h' | publish v | release v =>
      exact absurd (Option.some.inj here) (of_decide_eq_false unheld)
    | free v | clear v | bury v =>
      exact absurd (Option.some.inj here) (of_decide_eq_false unclosed)
  · apply ok.recounts
    intro h' refers
    have other : h' ≠ h := by
      rintro rfl
      exact here refers
    rw [Function.update_of_ne other]
    exact Entry.Recounts.refl _

theorem Ok.later {next : Nat} (ok : p.Ok table current) (order : current ≤ next) :
    p.Ok table next := by
  cases p with
  | idle | acquire => trivial
  | find ts h => exact Nat.lt_of_lt_of_le ok order
  | check ts h | load ts h | readTs ts h word | swap ts h word key | readRoot h ts =>
    exact ⟨ok.1.trans_le order, ok.2⟩
  | hold v | insert v root h | publish v | release v | checkLatest v | reread v | close v curVal
  | free v | clear v | bury v => exact ⟨ok.1.trans_le order, ok.2⟩

end Pc

section Moves

variable {writer : ι} {s : State ι} {i : ι} {p : Pc}

omit [Fintype ι] in
theorem goto_pc (s : State ι) (i : ι) (p : Pc) : (s.goto i p).pc = Function.update s.pc i p := rfl

theorem holders_goto_of_eq {h : Index} (same : p.holds h = (s.pc i).holds h) :
    (s.goto i p).holders h = s.holders h := by
  apply count_update_same
  rw [same]

theorem closers_goto_of_eq {h : Index} (same : p.closes h = (s.pc i).closes h) :
    (s.goto i p).closers h = s.closers h := by
  apply count_update_same
  rw [same]

omit [Fintype ι] in
/-- What every thread has, when the thread that moves gets it too. -/
theorem forall_pc_update {P : ι → Pc → Prop} (here : P i p) (others : ∀ j, P j (s.pc j)) (j : ι) :
    P j (Function.update s.pc i p j) := by
  by_cases same : j = i
  · subst same
    rwa [Function.update_self]
  · rw [Function.update_of_ne same]
    exact others j

omit [Fintype ι] in
theorem update_pc_eq {α : Type} {f : Pc → α} (same : f p = f (s.pc i)) (j : ι) :
    f (Function.update s.pc i p j) = f (s.pc j) :=
  forall_pc_update (P := fun j q => f q = f (s.pc j)) same (fun _ => rfl) j

omit [Fintype ι] in
theorem fresh_goto (publishes : p.publishes = (s.pc i).publishes) :
    (s.goto i p).fresh writer = s.fresh writer := by
  rw [State.fresh, State.fresh]
  show (if (Function.update s.pc i p writer).publishes = true then _ else _) = _
  rw [update_pc_eq publishes]
  rfl

/-- A step that changes nothing that is shared. -/
theorem Inv.move (inv : Inv writer s) (publishes : p.publishes = (s.pc i).publishes)
    (updates : p.updates = true → i = writer)
    (holds : ∀ h, p.holds h = (s.pc i).holds h) (closes : ∀ h, p.closes h = (s.pc i).closes h)
    (ok : p.Ok s.table s.currentTimestamp)
    (newest : i = writer → ∀ t ∈ p.timestamp, t + 1 = s.currentTimestamp)
    (retires : ∀ h, (s.table h).key + 1 < s.currentTimestamp → 0 < getRfct (s.table h).refct →
      s.holders h = 0 → (s.pc i).retires h (s.table h).refct = true →
        p.retires h (s.table h).refct = true) : Inv writer (s.goto i p) := by
  refine ⟨inv.running, inv.clock, fun h => ?_, inv.distinct, fun h => ?_, fun t => ?_, fun h => ?_,
    forall_pc_update (P := fun _ q => q.Ok s.table s.currentTimestamp) ok inv.thread,
    forall_pc_update (P := fun j q => q.updates = true → j = writer) updates inv.alone, fun t => ?_⟩
  · rw [holders_goto_of_eq (holds h), closers_goto_of_eq (closes h)]
    exact inv.phase h
  · rw [fresh_goto publishes]
    exact inv.bound h
  · rw [fresh_goto publishes]
    exact inv.live t
  · rw [holders_goto_of_eq (holds h)]
    intro old counted unheld
    obtain ⟨j, retiring⟩ := inv.retired h old counted unheld
    exact ⟨j, forall_pc_update (i := i) (p := p)
      (P := fun k q => k = j → q.retires h (s.table h).refct = true)
      (fun same => retires h old counted unheld (same ▸ retiring)) (fun k same => same ▸ retiring) j
      rfl⟩
  · exact forall_pc_update (P := fun k q => k = writer → t ∈ q.timestamp → t + 1 = _)
      (fun same => newest same t) (fun k same => same ▸ inv.newest t) writer rfl

/-- The entry of one version with another count. -/
def State.recount (s : State ι) (h : Index) (refct : Nat) : State ι :=
  s.store h { s.table h with refct }

omit [Fintype ι] [DecidableEq ι] in
theorem recount_table (s : State ι) (h : Index) (refct : Nat) (h' : Index) :
    ((s.recount h refct).table h').key = (s.table h').key ∧
      ((s.recount h refct).table h').root = (s.table h').root := by
  show (Function.update s.table h _ h').key = _ ∧ (Function.update s.table h _ h').root = _
  by_cases same : h' = h
  · subst same
    rw [Function.update_self]
    exact ⟨rfl, rfl⟩
  · rw [Function.update_of_ne same]
    exact ⟨rfl, rfl⟩

omit [Fintype ι] [DecidableEq ι] in
theorem recount_refct (s : State ι) (h : Index) (refct : Nat) :
    ((s.recount h refct).table h).refct = refct := by
  show (Function.update s.table h _ h).refct = _
  rw [Function.update_self]

omit [Fintype ι] [DecidableEq ι] in
theorem recount_of_ne (s : State ι) {h h' : Index} (refct : Nat) (other : h' ≠ h) :
    (s.recount h refct).table h' = s.table h' := Function.update_of_ne other ..

/-- A step that counts one thread more or less at an entry. -/
theorem Inv.recount (inv : Inv writer s) {h : Index} {refct : Nat} (publishes : p.publishes = (s.pc i).publishes)
    (updates : p.updates = true → i = writer)
    (holds : ∀ h' ≠ h, p.holds h' = (s.pc i).holds h')
    (closes : ∀ h' ≠ h, p.closes h' = (s.pc i).closes h')
    (phase : ((s.recount h refct).table h).Phase ((s.goto i p).holders h) ((s.goto i p).closers h))
    (counted : 0 < getRfct refct → 0 < getRfct (s.table h).refct)
    (stays : (s.table h).key + 1 < s.currentTimestamp ∨ 0 < getRfct refct)
    (unretiring : ∀ h' ≠ h, ∀ word, (s.pc i).retires h' word = false)
    (retired : (s.table h).key + 1 < s.currentTimestamp → 0 < getRfct refct →
      (s.goto i p).holders h = 0 → ∃ j, ((s.goto i p).pc j).retires h refct = true)
    (ok : p.Ok (s.recount h refct).table s.currentTimestamp)
    (newest : i = writer → ∀ t ∈ p.timestamp, t + 1 = s.currentTimestamp) :
    Inv writer ((s.recount h refct).goto i p) := by
  have key : ∀ h', ((s.recount h refct).table h').key = (s.table h').key := fun h' =>
    (recount_table s h refct h').1
  have again : ∀ h', ((s.recount h refct).table h').Recounts (s.table h') := by
    intro h'
    refine ⟨key h', (recount_table s h refct h').2, ?_⟩
    by_cases same : h' = h
    · rw [same, recount_refct]
      exact counted
    · rw [recount_of_ne s refct same]
      exact id
  have fresh : ((s.recount h refct).goto i p).fresh writer = s.fresh writer :=
    fresh_goto (s := s.recount h refct) publishes
  refine ⟨inv.running, inv.clock, fun h' => ?_, fun h₁ h₂ => ?_, fun h' => ?_, fun t => ?_,
    fun h' => ?_, forall_pc_update (P := fun _ q => q.Ok _ _) ok
      (fun j => (inv.thread j).recounts fun h' _ => again h'),
    forall_pc_update (P := fun j q => q.updates = true → j = writer) updates inv.alone, fun t => ?_⟩
  · by_cases same : h' = h
    · subst same
      exact phase
    · show ((s.recount h refct).table h').Phase ((s.goto i p).holders h') ((s.goto i p).closers h')
      rw [recount_of_ne s refct same, holders_goto_of_eq (holds h' same),
        closers_goto_of_eq (closes h' same)]
      exact inv.phase h'
  · show ((s.recount h refct).table h₁).key = ((s.recount h refct).table h₂).key →
      ((s.recount h refct).table h₁).key < tombstone → _
    rw [key, key]
    exact inv.distinct h₁ h₂
  · rw [fresh]
    show ((s.recount h refct).table h').key < _ → ((s.recount h refct).table h').key < _
    rw [key]
    exact inv.bound h'
  · rw [fresh]
    intro young next
    obtain ⟨h', here, positive⟩ := inv.live t young next
    refine ⟨h', (key h').trans here, ?_⟩
    show 0 < getRfct ((s.recount h refct).table h').refct
    by_cases same : h' = h
    · subst same
      rw [recount_refct]
      exact stays.resolve_left fun old => by
        have : s.currentTimestamp ≤ t + 1 := next
        omega
    · rw [recount_of_ne s refct same]
      exact positive
  · show ((s.recount h refct).table h').key + 1 < s.currentTimestamp →
      0 < getRfct ((s.recount h refct).table h').refct → (s.goto i p).holders h' = 0 → _
    rw [key]
    by_cases same : h' = h
    · subst same
      rw [recount_refct]
      intro old positive unheld
      obtain ⟨j, retiring⟩ := retired old positive unheld
      refine ⟨j, ?_⟩
      rw [State.goto, recount_refct]
      exact retiring
    · rw [recount_of_ne s refct same, holders_goto_of_eq (holds h' same)]
      intro old positive unheld
      obtain ⟨j, retiring⟩ := inv.retired h' old positive unheld
      have other : j ≠ i := by
        rintro rfl
        rw [unretiring h' same] at retiring
        cases retiring
      refine ⟨j, ?_⟩
      show (Function.update s.pc i p j).retires h' ((s.recount h refct).table h').refct = true
      rw [Function.update_of_ne other, recount_of_ne s refct same]
      exact retiring
  · exact forall_pc_update (P := fun k q => k = writer → t ∈ q.timestamp → t + 1 = _)
      (fun same => newest same t) (fun k same => same ▸ inv.newest t) writer rfl

end Moves

end Zeppelin.Aspen.VersionedGraph
