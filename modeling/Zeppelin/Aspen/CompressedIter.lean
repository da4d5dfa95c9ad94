import Zeppelin.Aspen.Compression
import Mathlib.Data.List.Basic

/-! Nodes of compressed neighbours, their allocation and their iterators, from
`compressed_nodes_2.h` and `compressed_iter.h`. A pointer to a node is an
option, and a read outside a node has no result. -/
namespace Zeppelin.Aspen

/-- The allocator that a node is taken from and given back to. -/
inductive Pool where
  | lists (size : Nat)
  | array
  deriving DecidableEq, Repr

def nodeArraySizes : List Nat :=
  [8, 16, 32, 64, 128, 256, 512, 1024, 2048, 4096, 8192, 16384]

/-- The branches of `alloc_node`, `underlying_array_size` and `deallocate`. -/
def firstFit (numBytes : Nat) : List Nat → Pool
  | [] => .array
  | size :: larger => if numBytes ≤ size then .lists size else firstFit numBytes larger

def poolFor (numBytes : Nat) : Pool := firstFit numBytes nodeArraySizes

/-- `alloc_node`: the allocator and the bytes it gives. -/
def allocNode (numBytes : Nat) : Pool × Nat :=
  match poolFor numBytes with
  | .lists size => (.lists size, size)
  | .array => (.array, numBytes)

/-- The header of a node and the bytes after it. -/
structure CompressedNode where
  pool : Pool
  deg : Nat
  totalSize : Nat
  refCt : Nat
  lastNgh : Nat
  neighbors : List UInt8
  deriving DecidableEq, Repr

/-- `node_size`. -/
def nodeSize (node : Option CompressedNode) : Nat :=
  match node with
  | some node => node.deg
  | none => 0

/-- `copy_node`: one more reference to the same node. -/
def copyNode (node : Option CompressedNode) : Option CompressedNode :=
  node.map fun node => { node with refCt := (node.refCt + 1) % 2 ^ 32 }

/-- The allocator that `deallocate` gives the last reference to. -/
def CompressedNode.freedTo (node : CompressedNode) : Pool := poolFor node.totalSize

/-- Two 16-bit and two 32-bit fields. -/
def headerSize : Nat := 2 + 2 + 4 + 4

structure WriteIter where
  pool : Pool
  nodeSize : Nat
  written : List UInt8
  proc : Nat
  src : Nat
  lastNgh : Nat
  deriving DecidableEq, Repr

namespace WriteIter

def create (src degUb : Nat) : WriteIter :=
  let (pool, nodeSize) := allocNode (degUb * 5 + 2 + 2 + 4 + 4)
  { pool, nodeSize, written := [], proc := 0, src, lastNgh := 0 }

def offset (w : WriteIter) : Nat := headerSize + w.written.length

def compressNext (w : WriteIter) (ngh : Nat) : WriteIter :=
  let bytes :=
    if w.proc = 0 then compressFirstNeighbor w.src ngh
    else compressNeighbor ((ngh + 2 ^ 32 - w.lastNgh) % 2 ^ 32)
  { w with written := w.written ++ bytes, proc := w.proc + 1, lastNgh := ngh }

/-- A node at most half full moves to an allocation of its own size. -/
def finish (w : WriteIter) : Option CompressedNode :=
  if w.proc = 0 then none
  else
    let pool := if 2 * w.offset ≤ w.nodeSize then (allocNode w.offset).1 else w.pool
    some
      { pool, deg := w.proc % 2 ^ 16, totalSize := w.offset % 2 ^ 16, refCt := 1,
        lastNgh := w.lastNgh, neighbors := w.written }

/-- The allocator that `finish` gives an allocation to that it does not keep, by
the size it has just stored in 16 bits. -/
def discarded (w : WriteIter) : Option Pool :=
  if w.proc = 0 ∨ 2 * w.offset ≤ w.nodeSize then some (poolFor (w.nodeSize % 2 ^ 16)) else none

end WriteIter

structure ReadIter where
  node : Option CompressedNode
  start : List UInt8
  src : Nat
  deg : Nat
  ngh : Nat
  proc : Nat
  deriving DecidableEq, Repr

namespace ReadIter

def create (node : Option CompressedNode) (src : Nat) : ReadIter :=
  { node, start := node.elim [] (·.neighbors), src, deg := node.elim 0 (·.deg), ngh := 0, proc := 0 }

def next (it : ReadIter) : Option (Nat × ReadIter) :=
  if it.proc = 0 then
    (readFirstNeighbor it.src it.start).map fun (ngh, start) =>
      (ngh, { it with start, ngh, proc := it.proc + 1 })
  else
    (readNeighbor 0 0 it.start).map fun (gap, start) =>
      ((it.ngh + gap) % 2 ^ 32, { it with start, ngh := (it.ngh + gap) % 2 ^ 32, proc := it.proc + 1 })

/-- The next values of an iterator, as the loops over a node's degree see them. -/
def take (it : ReadIter) : Nat → Option (List Nat)
  | 0 => some []
  | count + 1 => do
    let (ngh, it) ← it.next
    let rest ← it.take count
    return ngh :: rest

/-- The iterator gives these values one after the other. -/
def Yields (it : ReadIter) : List Nat → Prop
  | [] => True
  | ngh :: rest => ∃ after, it.next = some (ngh, after) ∧ after.Yields rest

end ReadIter

/-- What a list of neighbours looks like to the writer and to the loops. -/
structure Neighbors (l : List Nat) : Prop where
  ascending : l.Pairwise (· < ·)
  fits : ∀ ngh ∈ l, ngh < 2 ^ 32

/-- The bytes after a neighbour. -/
def gapBytes (last : Nat) : List Nat → List UInt8
  | [] => []
  | ngh :: rest => compressNeighbor ((ngh + 2 ^ 32 - last) % 2 ^ 32) ++ gapBytes ngh rest

/-- The bytes of a whole list. -/
def listBytes (src : Nat) : List Nat → List UInt8
  | [] => []
  | ngh :: rest => compressFirstNeighbor src ngh ++ gapBytes ngh rest

/-- The writer, after all values of a list. -/
def WriteIter.compressAll (w : WriteIter) (l : List Nat) : WriteIter := l.foldl compressNext w

namespace WriteIter

theorem compressAll_cons (w : WriteIter) (ngh : Nat) (l : List Nat) :
    w.compressAll (ngh :: l) = (w.compressNext ngh).compressAll l := rfl

theorem compressAll_started {w : WriteIter} (started : w.proc ≠ 0) (l : List Nat) :
    w.compressAll l = { w with
      written := w.written ++ gapBytes w.lastNgh l
      proc := w.proc + l.length
      lastNgh := l.getLastD w.lastNgh } := by
  induction l generalizing w with
  | nil => simp [compressAll, gapBytes]
  | cons ngh l ih =>
    have later : (w.compressNext ngh).proc ≠ 0 := Nat.succ_ne_zero _
    rw [compressAll_cons, ih later, compressNext]
    simp only [if_neg started, gapBytes, List.append_assoc, List.length_cons, List.getLastD_cons]
    congr 1
    omega

theorem compressAll_create (src degUb ngh : Nat) (l : List Nat) :
    (create src degUb).compressAll (ngh :: l) = { create src degUb with
      written := listBytes src (ngh :: l)
      proc := l.length + 1
      lastNgh := l.getLastD ngh } := by
  have first : (create src degUb).compressNext ngh = { create src degUb with
      written := compressFirstNeighbor src ngh, proc := 1, lastNgh := ngh } := rfl
  rw [compressAll_cons, first, compressAll_started (Nat.succ_ne_zero 0)]
  simp only [listBytes, Nat.add_comm 1]

end WriteIter

theorem length_gapBytes_le (last : Nat) (l : List Nat) : (gapBytes last l).length ≤ 5 * l.length := by
  induction l generalizing last with
  | nil => exact Nat.le_refl 0
  | cons ngh l ih =>
    have first := length_compressNeighbor_le
      (Nat.mod_lt (ngh + 2 ^ 32 - last) (show 0 < 2 ^ 32 by decide))
    have rest := ih ngh
    rw [gapBytes, List.length_append, List.length_cons]
    omega

theorem length_listBytes_le (src : Nat) (l : List Nat) : (listBytes src l).length ≤ 5 * l.length := by
  cases l with
  | nil => exact Nat.le_refl 0
  | cons ngh l =>
    have first := length_compressFirstNeighbor_le src ngh
    have rest := length_gapBytes_le ngh l
    rw [listBytes, List.length_append, List.length_cons]
    omega

namespace Neighbors

theorem tail {ngh : Nat} {l : List Nat} (valid : Neighbors (ngh :: l)) : Neighbors l :=
  ⟨valid.ascending.of_cons, fun x member => valid.fits x (List.mem_cons_of_mem _ member)⟩

end Neighbors

namespace ReadIter

theorem next_gap {it : ReadIter} {ngh : Nat} {rest : List UInt8} (started : it.proc ≠ 0)
    (above : it.ngh < ngh) (fits : ngh < 2 ^ 32)
    (start : it.start = compressNeighbor ((ngh + 2 ^ 32 - it.ngh) % 2 ^ 32) ++ rest) :
    it.next = some (ngh, { it with start := rest, ngh, proc := it.proc + 1 }) := by
  have gap : (ngh + 2 ^ 32 - it.ngh) % 2 ^ 32 = ngh - it.ngh := by omega
  have sum : (it.ngh + (ngh - it.ngh)) % 2 ^ 32 = ngh := by omega
  rw [next, if_neg started, start, gap,
    readNeighbor_compressNeighbor (by omega) (by omega), Option.map_some]
  simp only [sum]

theorem yields_gaps {it : ReadIter} {l : List Nat} (started : it.proc ≠ 0)
    (valid : Neighbors (it.ngh :: l)) (start : it.start = gapBytes it.ngh l) : it.Yields l := by
  induction l generalizing it with
  | nil => trivial
  | cons ngh l ih =>
    have above : it.ngh < ngh := List.rel_of_pairwise_cons valid.ascending (List.mem_cons_self ..)
    have fits : ngh < 2 ^ 32 := valid.tail.fits ngh (List.mem_cons_self ..)
    exact ⟨_, next_gap started above fits start, ih (Nat.succ_ne_zero _) valid.tail rfl⟩

theorem yields_list {it : ReadIter} {l : List Nat} (fresh : it.proc = 0) (source : it.src < 2 ^ 32)
    (valid : Neighbors l) (start : it.start = listBytes it.src l) : it.Yields l := by
  cases l with
  | nil => trivial
  | cons ngh l =>
    have fits : ngh < 2 ^ 32 := valid.fits ngh (List.mem_cons_self ..)
    have first : it.next = some (ngh, { it with start := gapBytes ngh l, ngh, proc := 1 }) := by
      rw [next, if_pos fresh, start, listBytes, readFirstNeighbor_compress source fits,
        Option.map_some, fresh]
    exact ⟨_, first, yields_gaps (Nat.succ_ne_zero 0) valid rfl⟩

theorem Yields.left {it : ReadIter} {l r : List Nat} (yields : it.Yields (l ++ r)) :
    it.Yields l := by
  induction l generalizing it with
  | nil => trivial
  | cons ngh l ih =>
    obtain ⟨after, first, others⟩ := yields
    exact ⟨after, first, ih others⟩

theorem Yields.take_eq {it : ReadIter} {l : List Nat} (yields : it.Yields l) :
    it.take l.length = some l := by
  induction l generalizing it with
  | nil => rfl
  | cons ngh l ih =>
    obtain ⟨after, first, others⟩ := yields
    rw [List.length_cons, take, first]
    simp only [Option.bind_eq_bind, Option.bind_some, ih others, pure]

end ReadIter

/-- The bytes of a node with a list, its header included. -/
def byteSize (src : Nat) (l : List Nat) : Nat := headerSize + (listBytes src l).length

theorem finish_cons (src degUb ngh : Nat) (l : List Nat) :
    ((WriteIter.create src degUb).compressAll (ngh :: l)).finish = some
      { pool := if 2 * byteSize src (ngh :: l) ≤ (WriteIter.create src degUb).nodeSize
          then (allocNode (byteSize src (ngh :: l))).1 else (WriteIter.create src degUb).pool
        deg := (ngh :: l).length % 2 ^ 16
        totalSize := byteSize src (ngh :: l) % 2 ^ 16
        refCt := 1
        lastNgh := l.getLastD ngh
        neighbors := listBytes src (ngh :: l) } := by
  rw [WriteIter.compressAll_create]
  rfl

/-- The node holds exactly the list, relative to its source. -/
def Holds (src : Nat) (node : Option CompressedNode) (l : List Nat) : Prop :=
  match node with
  | none => l = []
  | some node => l ≠ [] ∧ node.deg = l.length ∧ node.lastNgh = l.getLastD 0 ∧
      node.neighbors = listBytes src l

theorem holds_finish {src : Nat} (degUb : Nat) {l : List Nat} (small : l.length < 2 ^ 16) :
    Holds src ((WriteIter.create src degUb).compressAll l).finish l := by
  cases l with
  | nil => rfl
  | cons ngh l =>
    rw [finish_cons]
    refine ⟨List.cons_ne_nil _ _, Nat.mod_eq_of_lt small, ?_, rfl⟩
    rw [List.getLastD_cons]

/-- The values that a loop over the degree of a node reads. -/
def elements (node : Option CompressedNode) (src : Nat) : Option (List Nat) :=
  (ReadIter.create node src).take (ReadIter.create node src).deg

/-- The degree has 16 bits, so a list reads back up to its length modulo
`2 ^ 16`, whichever side of the source its neighbours are on. -/
theorem elements_finish {src degUb : Nat} {l : List Nat} (source : src < 2 ^ 32)
    (valid : Neighbors l) :
    elements ((WriteIter.create src degUb).compressAll l).finish src =
      some (l.take (l.length % 2 ^ 16)) := by
  cases l with
  | nil => rfl
  | cons ngh l =>
    have short : ((ngh :: l).take ((ngh :: l).length % 2 ^ 16)).length = (ngh :: l).length % 2 ^ 16 :=
      List.length_take_of_le (Nat.mod_le _ _)
    have yields : (ReadIter.create
        ((WriteIter.create src degUb).compressAll (ngh :: l)).finish src).Yields (ngh :: l) :=
      ReadIter.yields_list rfl source valid (by rw [finish_cons]; rfl)
    rw [← List.take_append_drop ((ngh :: l).length % 2 ^ 16) (ngh :: l)] at yields
    have part := yields.left.take_eq
    rw [short, List.take_append_drop] at part
    rw [elements, show (ReadIter.create _ src).deg = (ngh :: l).length % 2 ^ 16 by rw [finish_cons]; rfl]
    exact part

/-- Neighbours below and above their source. -/
theorem elements_finish_around :
    elements ((WriteIter.create 5 3).compressAll [3, 5, 1000000]).finish 5 =
      some [3, 5, 1000000] :=
  elements_finish (by decide) ⟨by decide, by decide⟩

section Allocation

theorem firstFit_eq_array {numBytes : Nat} {sizes : List Nat} :
    firstFit numBytes sizes = .array ↔ ∀ size ∈ sizes, size < numBytes := by
  induction sizes with
  | nil => simp [firstFit]
  | cons size larger ih =>
    rw [firstFit, List.forall_mem_cons]
    split
    · simp only [reduceCtorEq, false_iff]
      omega
    · rw [ih]
      exact ⟨fun all => ⟨by omega, all⟩, And.right⟩

theorem le_of_firstFit {numBytes size : Nat} {sizes : List Nat}
    (found : firstFit numBytes sizes = .lists size) : size ∈ sizes ∧ numBytes ≤ size := by
  induction sizes with
  | nil => cases found
  | cons first larger ih =>
    rw [firstFit] at found
    split at found
    · cases found
      exact ⟨List.mem_cons_self .., ‹_›⟩
    · exact ⟨List.mem_cons_of_mem _ (ih found).1, (ih found).2⟩

/-- Where sizes at least double, a node more than half as large as a size has it. -/
theorem firstFit_of_half {numBytes size : Nat} {sizes : List Nat}
    (double : sizes.Pairwise fun a b => 2 * a ≤ b) (member : size ∈ sizes)
    (half : size < 2 * numBytes) (fits : numBytes ≤ size) :
    firstFit numBytes sizes = .lists size := by
  induction sizes with
  | nil => cases member
  | cons first larger ih =>
    rw [firstFit]
    rcases List.mem_cons.mp member with rfl | later
    · rw [if_pos fits]
    · have far := List.rel_of_pairwise_cons double later
      rw [if_neg (by omega)]
      exact ih double.of_cons later

theorem poolFor_eq_array {numBytes : Nat} : poolFor numBytes = .array ↔ 16384 < numBytes := by
  rw [poolFor, firstFit_eq_array]
  constructor
  · intro all
    exact all 16384 (by decide)
  · intro large size member
    have most : ∀ size ∈ nodeArraySizes, size ≤ 16384 := by decide
    exact Nat.lt_of_le_of_lt (most size member) large

theorem allocNode_fst (numBytes : Nat) : (allocNode numBytes).1 = poolFor numBytes := by
  rw [allocNode]
  cases poolFor numBytes with
  | lists size => rfl
  | array => rfl

theorem le_size_allocNode (numBytes : Nat) : numBytes ≤ (allocNode numBytes).2 := by
  rw [allocNode]
  cases found : poolFor numBytes with
  | array => exact Nat.le_refl _
  | lists size => exact (le_of_firstFit found).2

/-- What the writer stores never passes the end of its allocation. -/
theorem offset_le_nodeSize {src degUb : Nat} {l : List Nat} (most : l.length ≤ degUb) :
    ((WriteIter.create src degUb).compressAll l).offset ≤
      ((WriteIter.create src degUb).compressAll l).nodeSize := by
  have enough : degUb * 5 + 12 ≤ (WriteIter.create src degUb).nodeSize := le_size_allocNode _
  cases l with
  | nil => exact Nat.le_trans (Nat.le_add_left 12 (degUb * 5)) enough
  | cons ngh l =>
    have bytes := length_listBytes_le src (ngh :: l)
    rw [WriteIter.compressAll_create, WriteIter.offset, headerSize]
    simp only at bytes ⊢
    omega

theorem offset_le_nodeSize_one :
    ((WriteIter.create 5 1).compressAll [4000000000]).offset ≤
      ((WriteIter.create 5 1).compressAll [4000000000]).nodeSize :=
  offset_le_nodeSize (by decide)

theorem pool_create (src degUb : Nat) :
    (WriteIter.create src degUb).pool = poolFor (degUb * 5 + 12) := allocNode_fst _

theorem nodeSize_create_of_array {degUb : Nat} (src : Nat)
    (large : poolFor (degUb * 5 + 12) = .array) :
    (WriteIter.create src degUb).nodeSize = degUb * 5 + 12 := by
  show (allocNode (degUb * 5 + 12)).2 = degUb * 5 + 12
  rw [allocNode, large]

theorem nodeSize_create_of_lists {degUb size : Nat} (src : Nat)
    (found : poolFor (degUb * 5 + 12) = .lists size) :
    (WriteIter.create src degUb).nodeSize = size := by
  show (allocNode (degUb * 5 + 12)).2 = size
  rw [allocNode, found]

/-- The recorded size finds the size class of a node again: a node that stays in
a list allocation fills more than half of it. -/
theorem poolFor_byteSize {src degUb size : Nat} {l : List Nat} (most : l.length ≤ degUb)
    (found : poolFor (degUb * 5 + 12) = .lists size) (stays : size < 2 * byteSize src l) :
    poolFor (byteSize src l) = .lists size := by
  obtain ⟨member, fits⟩ := le_of_firstFit found
  have bytes := length_listBytes_le src l
  apply firstFit_of_half (by decide) member stays
  rw [byteSize, headerSize]
  omega

/-- A node goes back to the allocator it came from, except for two kinds: the
array of a node that is neither half empty nor above the largest size class, and
a node whose size wraps in 16 bits to a size of a class. -/
theorem freedTo_eq_pool_iff {src degUb : Nat} {l : List Nat} {node : CompressedNode}
    (most : l.length ≤ degUb)
    (finished : ((WriteIter.create src degUb).compressAll l).finish = some node) :
    node.freedTo = node.pool ↔
      ¬(byteSize src l ≤ 16384 ∧ 16384 < degUb * 5 + 12 ∧ degUb * 5 + 12 < 2 * byteSize src l) ∧
        ¬(2 ^ 16 ≤ byteSize src l ∧ byteSize src l % 2 ^ 16 ≤ 16384) := by
  cases l with
  | nil => cases finished
  | cons ngh l =>
    have bytes : byteSize src (ngh :: l) ≤ degUb * 5 + 12 := by
      have bytes := length_listBytes_le src (ngh :: l)
      rw [byteSize, headerSize]
      omega
    rw [finish_cons] at finished
    obtain rfl := Option.some.inj finished
    obtain ⟨size, sizeEq⟩ : ∃ size, size = byteSize src (ngh :: l) := ⟨_, rfl⟩
    rw [CompressedNode.freedTo, allocNode_fst, pool_create]
    simp only [← sizeEq] at bytes ⊢
    cases found : poolFor (degUb * 5 + 12) with
    | array =>
      have large := poolFor_eq_array.mp found
      rw [nodeSize_create_of_array src found]
      split
      next moves =>
        by_cases whole : size < 2 ^ 16
        · rw [Nat.mod_eq_of_lt whole]
          simp
          omega
        · rw [poolFor_eq_array.mpr (show 16384 < size by omega), poolFor_eq_array]
          omega
      next stays =>
        rw [poolFor_eq_array]
        omega
    | lists pool =>
      have small : ¬16384 < degUb * 5 + 12 := fun large => by
        rw [poolFor_eq_array.mpr large] at found
        cases found
      rw [nodeSize_create_of_lists src found, Nat.mod_eq_of_lt (show size < 2 ^ 16 by omega)]
      split
      next => simp; omega
      next stays =>
        rw [sizeEq, poolFor_byteSize most found (by omega)]
        simp; omega

/-- Neighbours with three bytes each. -/
def threeByteGaps (n : Nat) : List Nat := (List.range n).map fun i => 20000 * (i + 1)

/-- A node of 9835 bytes that stays in an array is freed to a list. -/
theorem freedTo_eq_pool_iff_gaps : ∃ node,
    ((WriteIter.create 5 3275).compressAll (0 :: threeByteGaps 3274)).finish = some node ∧
    node.freedTo ≠ node.pool ∧ (node.freedTo = node.pool ↔
      ¬(byteSize 5 (0 :: threeByteGaps 3274) ≤ 16384 ∧ 16384 < 3275 * 5 + 12 ∧
          3275 * 5 + 12 < 2 * byteSize 5 (0 :: threeByteGaps 3274)) ∧
        ¬(2 ^ 16 ≤ byteSize 5 (0 :: threeByteGaps 3274) ∧
          byteSize 5 (0 :: threeByteGaps 3274) % 2 ^ 16 ≤ 16384)) := by
  have size : byteSize 5 (0 :: threeByteGaps 3274) = 9835 := by decide +kernel
  have exact := freedTo_eq_pool_iff (by decide +kernel) (finish_cons 5 3275 0 (threeByteGaps 3274))
  refine ⟨_, finish_cons 5 3275 0 (threeByteGaps 3274), fun same => ?_, exact⟩
  have kind := (exact.mp same).1
  rw [size] at kind
  exact kind (by decide)

theorem compressAll_kept (w : WriteIter) (l : List Nat) :
    (w.compressAll l).pool = w.pool ∧ (w.compressAll l).nodeSize = w.nodeSize := by
  induction l generalizing w with
  | nil => exact ⟨rfl, rfl⟩
  | cons ngh l ih => exact ih (w.compressNext ngh)

/-- An allocation that is not kept goes back to where it came from, unless its size
wraps in 16 bits to the size of a class. -/
theorem discarded_eq_pool_iff {src degUb : Nat} {l : List Nat} {pool : Pool}
    (discards : ((WriteIter.create src degUb).compressAll l).discarded = some pool) :
    pool = ((WriteIter.create src degUb).compressAll l).pool ↔
      ¬(2 ^ 16 ≤ degUb * 5 + 12 ∧ (degUb * 5 + 12) % 2 ^ 16 ≤ 16384) := by
  obtain ⟨kept, size⟩ := compressAll_kept (WriteIter.create src degUb) l
  rw [WriteIter.discarded, size] at discards
  rw [kept, pool_create]
  obtain rfl : poolFor ((WriteIter.create src degUb).nodeSize % 2 ^ 16) = pool := by
    split at discards
    · exact Option.some.inj discards
    · cases discards
  cases found : poolFor (degUb * 5 + 12) with
  | array =>
    have large := poolFor_eq_array.mp found
    rw [nodeSize_create_of_array src found, poolFor_eq_array]
    by_cases whole : degUb * 5 + 12 < 2 ^ 16
    · rw [Nat.mod_eq_of_lt whole]
      omega
    · omega
  | lists size =>
    have small : ¬16384 < degUb * 5 + 12 := fun large => by
      rw [poolFor_eq_array.mpr large] at found
      cases found
    obtain ⟨member, -⟩ := le_of_firstFit found
    have own : ∀ size ∈ nodeArraySizes, poolFor (size % 2 ^ 16) = .lists size := by decide
    rw [nodeSize_create_of_lists src found, own size member]
    simp
    omega

end Allocation

theorem Holds.copy {src : Nat} {node : Option CompressedNode} {l : List Nat}
    (holds : Holds src node l) : Holds src (copyNode node) l := by
  cases node with
  | none => exact holds
  | some node => exact holds

theorem Holds.yields {src : Nat} {node : Option CompressedNode} {l : List Nat}
    (holds : Holds src node l) (source : src < 2 ^ 32) (valid : Neighbors l) :
    (ReadIter.create node src).Yields l := by
  cases node with
  | none =>
    rw [show l = [] from holds]
    trivial
  | some node => exact ReadIter.yields_list rfl source valid holds.2.2.2

theorem Holds.deg_eq {src : Nat} {node : Option CompressedNode} {l : List Nat}
    (holds : Holds src node l) : (ReadIter.create node src).deg = l.length := by
  cases node with
  | none => rw [show l = [] from holds]; rfl
  | some node => exact holds.2.1

end Zeppelin.Aspen
