import Zeppelin.Aspen.CompressedLists
import Zeppelin.Aspen.MapSearch
import Zeppelin.Ordered.Segments

/-! Edge lists as trees of chunks, from `tree_plus.h`. A neighbour is a head by its
hash; a tree holds the heads, each with the neighbours up to the next head, and
the neighbours before the first head are the plus. A chunk is the ascending list
that its compressed node holds, and a null pointer is the empty list. This is what
the node gives back while its 16-bit degree counts the list, that is, while the
chunk has fewer than `2 ^ 16` neighbours. -/
namespace Zeppelin.Aspen

open Ordered

/-- `pbbs::hash32_2`. -/
def hash32_2 (a : UInt32) : UInt32 :=
  let z := a + 0x6D2B79F5
  let z := (z ^^^ (z >>> (15 : UInt32))) * (z ||| 1)
  let z := z ^^^ (z + (z ^^^ (z >>> (7 : UInt32))) * (z ||| 61))
  z ^^^ (z >>> (14 : UInt32))

/-- `is_head`, with `head_mask`. -/
def isHead (vtxId : Nat) : Bool := hash32_2 (UInt32.ofNat vtxId) &&& 0xff = 0

/-- `edge_entry`: the augmented value counts the neighbours. -/
instance : AugEntry Nat (List Nat) Nat where
  getEmpty := 0
  fromEntry e := 1 + e.2.length
  combine a b := a + b

abbrev EdgeList : Type := Tree Nat (List Nat) Nat

/-- `treeplus` and `treeplus_c`. -/
structure TreePlus where
  plus : List Nat
  root : EdgeList
  deriving DecidableEq

namespace TreePlus

def none : TreePlus := ⟨[], .null⟩

def hasTree (t : TreePlus) : Bool := t.root != .null

def hasPlus (t : TreePlus) : Bool := t.plus != []

def empty (t : TreePlus) : Bool := t.root == .null && t.plus == []

def degree (t : TreePlus) : Nat := t.plus.length + t.root.augVal

def contains (t : TreePlus) (ngh : Nat) : Bool :=
  match t.root.previousOrEq ngh with
  | some e => e.1 == ngh || e.2.contains ngh
  | .none => t.plus.contains ngh

/-- `iter_elms`: the neighbours in the order they are visited. -/
def elements (t : TreePlus) : List Nat := t.plus ++ t.root.entries.flatMap fun e => e.1 :: e.2

/-- The degrees of the plus and of all chunks are 16-bit numbers. -/
def Fits (t : TreePlus) : Prop :=
  t.plus.length < 2 ^ 16 ∧ ∀ e ∈ t.root.entries, e.2.length < 2 ^ 16

/-- `split_info`. -/
structure SplitInfo where
  first : TreePlus
  second : TreePlus
  removed : Bool

/-- `split_node` on the list of a node. -/
def splitList (l : List Nat) (key : Nat) : List Nat × List Nat × Bool :=
  (l.filter (· < key), l.filter (key < ·), l.contains key)

/-- `get_last_key`. -/
def getLastKey (l : List Nat) : Nat := l.getLastD uintVMax

/-- `split` when the key is not in the range of the plus and not before it. -/
def splitTree (splitKey : Nat) (plus : List Nat) : EdgeList → SplitInfo
  | .null => ⟨⟨plus, .null⟩, none, false⟩
  | .node lc (key, arr) rc _ _ =>
    if key < splitKey then
      if getLastKey arr ≠ uintVMax ∧ splitKey ≤ getLastKey arr then
        let (lt, gt, found) := splitList arr splitKey
        ⟨⟨plus, lc.nodeJoin .null (key, lt)⟩, ⟨gt, rc⟩, found⟩
      else
        let bstpair := splitTree splitKey [] rc
        ⟨⟨plus, lc.nodeJoin bstpair.first.root (key, arr)⟩, bstpair.second, bstpair.removed⟩
    else if splitKey < key then
      let bstpair := splitTree splitKey [] lc
      ⟨⟨plus, bstpair.first.root⟩,
        ⟨bstpair.second.plus, bstpair.second.root.nodeJoin rc (key, arr)⟩, bstpair.removed⟩
    else ⟨⟨plus, lc⟩, ⟨arr, rc⟩, true⟩

/-- `split`. -/
def split (t : TreePlus) (splitKey : Nat) : SplitInfo :=
  match t.plus with
  | [] => splitTree splitKey [] t.root
  | firstKey :: _ =>
    if firstKey ≤ splitKey ∧ splitKey ≤ getLastKey t.plus then
      let (lt, gt, found) := splitList t.plus splitKey
      ⟨⟨lt, .null⟩, ⟨gt, t.root⟩, found⟩
    else if splitKey < firstKey then ⟨none, t, false⟩
    else splitTree splitKey t.plus t.root

/-- `insert_rightmost`. -/
def insertRightmost (root : EdgeList) (toInsert : List Nat) : EdgeList :=
  match root.last with
  | some e => root.insert (e.1, Ordered.union e.2 toInsert) fun _ b => b
  | .none => root

/-- `join2`, with `join_plus_and_other` and `join_other_and_plus`. -/
def join2 (b1 b2 : TreePlus) : TreePlus :=
  if b1.empty then b2
  else if b2.empty then b1
  else if b1.hasPlus && !b1.hasTree then ⟨Ordered.union b1.plus b2.plus, b2.root⟩
  else if b2.hasPlus && !b2.hasTree then ⟨b1.plus, insertRightmost b1.root b2.plus⟩
  else
    let newB1Root := if b2.hasPlus then insertRightmost b1.root b2.plus else b1.root
    ⟨b1.plus, newB1Root.join2 b2.root⟩

section Constructor

variable (S : List Nat)

/-- `starts`, after the copy scan: the index of the last head before each element. -/
def starts : List Nat :=
  (S.zipIdx.map fun (v, i) => if isHead v then i else uintVMax).scanl
    (fun l r => if r = uintVMax then l else r) uintVMax |>.tail

/-- `first_ind`. -/
def firstInd : Nat := (starts S).findIdx (· != uintVMax)

def headIndices : List Nat := (List.range S.length).filter fun i => isHead (S.getD i 0)

/-- The heads with their chunks, each up to the next head. -/
def kvSeq : List (Nat × List Nat) :=
  (headIndices S).zipIdx.map fun (headIndex, i) =>
    let stop := (headIndices S).getD (i + 1) S.length
    (S.getD headIndex 0, (S.take stop).drop (headIndex + 1))

/-- The constructor from a sequence. -/
def ofSequence : TreePlus :=
  if S = [] then none
  else ⟨S.take (firstInd S), Tree.null.multiInsertSorted (fun _ b => b) (kvSeq S)⟩

end Constructor

end TreePlus

end Zeppelin.Aspen
