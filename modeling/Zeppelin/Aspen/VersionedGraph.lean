import Zeppelin.Machine.Run
import Mathlib.Data.Fin.Basic
import Mathlib.Algebra.Ring.Nat
import Mathlib.Logic.Function.Basic

/-! The versions of a graph that readers share with one writer, from
`versioned_graph.h` and `sequentialHT.h`. Every access to memory that threads
share is one step, and the threads take their steps in any order: a read, a
compare-and-swap, `fetch_and_add`, or a store of a whole table entry. A version's
graph is its root, and a root is freed when its reference count goes to zero. -/
namespace Zeppelin.Aspen.VersionedGraph

/-- `max_ts`, the key of an empty entry. -/
def maxTs : Nat := 2 ^ 32 - 1

def tombstone : Nat := maxTs - 1

/-- `refct_utils::make_refct`. -/
def makeRefct (currentTs refCt : Nat) : Nat := currentTs <<< 32 ||| refCt

/-- `refct_utils::get_rfct`. -/
def getRfct (tsAndCt : Nat) : Nat := tsAndCt &&& 2 ^ 32 - 1

/-- `pbbs::hash32`. -/
def hash32 (a : UInt32) : UInt32 :=
  let a := (a + 0x7ed55d16) + (a <<< (12 : UInt32))
  let a := (a ^^^ 0xc761c23c) ^^^ (a >>> (19 : UInt32))
  let a := (a + 0x165667b1) + (a <<< (5 : UInt32))
  let a := (a + 0xd3a2646c) ^^^ (a <<< (9 : UInt32))
  let a := (a + 0xfd7046c5) + (a <<< (3 : UInt32))
  (a ^^^ 0xb55a4f09) ^^^ (a >>> (16 : UInt32))

/-- An index of the table, which has `initial_ht_size` entries. -/
abbrev Index : Type := Fin 512

/-- `firstIndex`. A timestamp has no bits above the lowest 32, so that all of
them start at one index. -/
def firstIndex (v : Nat) : Index := Fin.ofNat 512 ((hash32 (UInt32.ofNat (v >>> 32))).toNat &&& 511)

/-- `incrementIndex`. -/
def incrementIndex (h : Index) : Index := h + 1

structure Entry where
  key : Nat
  refct : Nat
  root : Option Nat
  deriving DecidableEq

/-- The `empty` entry of the table. -/
def Entry.empty : Entry := ⟨maxTs, 0, none⟩

/-- `version`, with the index of its `table_entry`. -/
structure Version where
  timestamp : Nat
  tableEntry : Index
  root : Option Nat
  deriving DecidableEq

/-- Where a thread is, with its local variables. -/
inductive Pc where
  /-- outside of the calls -/
  | idle
  /-- `acquire_version`, at the head of its loop -/
  | acquire
  /-- `find`, before it reads the entry -/
  | find (latestTs : Nat) (h : Index)
  /-- before `get<0>(table_ref) == tombstone` -/
  | check (latestTs : Nat) (tableRef : Index)
  /-- before `refct_and_ts` is read -/
  | load (latestTs : Nat) (tableRef : Index)
  /-- before `ts` is read -/
  | readTs (latestTs : Nat) (tableRef : Index) (refctAndTs : Nat)
  /-- before the compare-and-swap of `acquire_version` -/
  | swap (latestTs : Nat) (tableRef : Index) (refctAndTs ts : Nat)
  /-- before the root is read -/
  | readRoot (tableRef : Index) (ts : Nat)
  /-- with an acquired version -/
  | hold (version : Version)
  /-- the writer in `insert`, before it reads the entry -/
  | insert (version : Version) (root : Option Nat) (h : Index)
  /-- the writer, before it makes the new version visible -/
  | publish (version : Version)
  /-- `release_version`, before `fetch_and_add` -/
  | release (version : Version)
  /-- before `timestamp != latest_timestamp()` -/
  | checkLatest (version : Version)
  /-- before `cur_val` is read -/
  | reread (version : Version)
  /-- before the compare-and-swap of `release_version` -/
  | close (version : Version) (curVal : Nat)
  /-- before the root is freed -/
  | free (version : Version)
  /-- before `*table_entry = first_empty` -/
  | clear (version : Version)
  /-- before `*table_entry = empty` -/
  | bury (version : Version)
  deriving DecidableEq

structure State (ι : Type) where
  currentTimestamp : Nat
  table : Index → Entry
  /-- reference counts of the roots, which are numbered in the order they are built -/
  refCnt : Nat → Nat
  built : Nat
  /-- after `exit(0)` -/
  exited : Bool
  pc : ι → Pc

variable {ι : Type} [DecidableEq ι]

namespace State

/-- `latest_timestamp`, on 32 bits. -/
def latestTimestamp (s : State ι) : Nat := (s.currentTimestamp + (2 ^ 32 - 1)) % 2 ^ 32

def goto (s : State ι) (i : ι) (p : Pc) : State ι := { s with pc := Function.update s.pc i p }

def store (s : State ι) (h : Index) (e : Entry) : State ι :=
  { s with table := Function.update s.table h e }

/-- The next step of a thread. -/
def advance (s : State ι) (i : ι) : State ι :=
  match s.pc i with
  | .idle => s.goto i .acquire
  | .acquire => s.goto i (.find s.latestTimestamp (firstIndex s.latestTimestamp))
  | .find latestTs h =>
    if (s.table h).key = maxTs then s.goto i .acquire
    else if (s.table h).key = latestTs then s.goto i (.check latestTs h)
    else s.goto i (.find latestTs (incrementIndex h))
  | .check latestTs h =>
    if (s.table h).key = tombstone then s.goto i .acquire else s.goto i (.load latestTs h)
  | .load latestTs h => s.goto i (.readTs latestTs h (s.table h).refct)
  | .readTs latestTs h refctAndTs =>
    if 0 < getRfct refctAndTs then s.goto i (.swap latestTs h refctAndTs (s.table h).key)
    else s.goto i .acquire
  | .swap latestTs h refctAndTs ts =>
    if (s.table h).refct = refctAndTs then
      (s.store h { s.table h with refct := (refctAndTs + 1) % 2 ^ 64 }).goto i (.readRoot h ts)
    else s.goto i (.check latestTs h)
  | .readRoot h ts => s.goto i (.hold ⟨ts, h, (s.table h).root⟩)
  | .hold v => s.goto i (.release v)
  | .insert v root h =>
    if (s.table h).key = maxTs ∨ (s.table h).key = tombstone then
      (s.store h ⟨s.currentTimestamp, makeRefct s.currentTimestamp 1, root⟩).goto i (.publish v)
    else if (s.table h).key = s.currentTimestamp then s.goto i (.publish v)
    else s.goto i (.insert v root (incrementIndex h))
  | .publish v =>
    { s.goto i (.release v) with currentTimestamp := (s.currentTimestamp + 1) % 2 ^ 32 }
  | .release v =>
    let e := s.table v.tableEntry
    (s.store v.tableEntry { e with refct := (e.refct + (2 ^ 64 - 1)) % 2 ^ 64 }).goto i
      (if getRfct e.refct = 2 then .checkLatest v else .idle)
  | .checkLatest v => s.goto i (if v.timestamp ≠ s.latestTimestamp then .reread v else .idle)
  | .reread v =>
    let curVal := (s.table v.tableEntry).refct
    s.goto i (if getRfct curVal = 1 then .close v curVal else .idle)
  | .close v curVal =>
    let e := s.table v.tableEntry
    if e.refct = curVal then (s.store v.tableEntry { e with refct := curVal - 1 }).goto i (.free v)
    else s.goto i .idle
  | .free v =>
    match v.root with
    | none => s.goto i (.clear v)
    | some r =>
      if s.refCnt r ≠ 1 then { s with exited := true }
      else { s.goto i (.clear v) with refCnt := Function.update s.refCnt r 0 }
  | .clear v => (s.store v.tableEntry ⟨v.timestamp, 0, none⟩).goto i (.bury v)
  | .bury v => (s.store v.tableEntry ⟨tombstone, 0, none⟩).goto i .idle

/-- The writer builds the next graph from the one it holds. A batch of no edges
gives the same root once more. -/
def build (s : State ι) (writer : ι) (v : Version) (noEdges : Bool) : State ι :=
  if noEdges then
    { s.goto writer (.insert v v.root (firstIndex s.currentTimestamp)) with
      refCnt := match v.root with
        | none => s.refCnt
        | some r => Function.update s.refCnt r (s.refCnt r + 1) }
  else
    { s.goto writer (.insert v (some s.built) (firstIndex s.currentTimestamp)) with
      refCnt := Function.update s.refCnt s.built 1
      built := s.built + 1 }

end State

inductive Action (ι : Type) where
  | advance (i : ι)
  | build (noEdges : Bool)
  deriving DecidableEq

/-- Some steps of one thread. -/
def turns (i : ι) (n : Nat) : List (Action ι) := List.replicate n (.advance i)

/-- One thread takes a step. A thread that holds a version calls `release_version`
next, unless it is the writer and builds the next version. -/
def step (writer : ι) (s : State ι) (a : Action ι) : Option (State ι) :=
  if s.exited then none
  else match a with
    | .advance i => some (s.advance i)
    | .build noEdges =>
      match s.pc writer with
      | .hold v => some (s.build writer v noEdges)
      | _ => none

/-- After the constructor, on an empty graph or on one that is given. -/
def initial (ι : Type) (given : Bool) : State ι where
  currentTimestamp := 1
  table := Function.update (fun _ => Entry.empty) (firstIndex 0)
    ⟨0, makeRefct 0 1, if given then some 0 else none⟩
  refCnt := fun r => if given ∧ r = 0 then 1 else 0
  built := if given then 1 else 0
  exited := false
  pc := fun _ => .idle

end Zeppelin.Aspen.VersionedGraph
