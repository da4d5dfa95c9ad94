import Zeppelin.Aspen.ChunkSets
import Zeppelin.Aspen.TreeAlike
import Zeppelin.Aspen.TreePlusGroups

/-! Edge trees of compressed nodes, from `tree_plus.h`. The plus and the chunks are
pointers to nodes, and what an edge tree answers and how it is cut is read from the
bytes of the nodes. While the lists fit in their nodes this is what the edge tree of
the lists does. -/
namespace Zeppelin.Aspen

/-- `edge_entry` on pointers: `1 + node_size`. -/
instance : AugEntry Nat (Option CompressedNode) Nat where
  getEmpty := 0
  fromEntry e := 1 + nodeSize e.2
  combine a b := a + b

abbrev NodeTree : Type := Tree Nat (Option CompressedNode) Nat

/-- `treeplus_c`, with the pointers to its nodes. -/
structure NodePlus where
  plus : Option CompressedNode
  root : NodeTree
  deriving DecidableEq

namespace NodePlus

def none : NodePlus := ⟨.none, .null⟩

def hasTree (t : NodePlus) : Bool := t.root != .null

def hasPlus (t : NodePlus) : Bool := t.plus.isSome

def empty (t : NodePlus) : Bool := t.root == .null && t.plus.isNone

def degree (t : NodePlus) : Nat := nodeSize t.plus + t.root.augVal

def contains (t : NodePlus) (src ngh : Nat) : Option Bool :=
  match t.root.previousOrEq ngh with
  | some e => if e.1 = ngh then some true else containsNode e.2 src ngh
  | .none => containsNode t.plus src ngh

/-- `iter_elms`. -/
def elements (t : NodePlus) (src : Nat) : Option (List Nat) := do
  let plus ← Zeppelin.Aspen.elements t.plus src
  let rest ← t.root.entries.mapM fun e => (Zeppelin.Aspen.elements e.2 src).map (e.1 :: ·)
  return plus ++ rest.flatten

/-- `split_info`. -/
structure SplitInfo where
  first : NodePlus
  second : NodePlus
  removed : Bool

/-- `get_last_key`. -/
def getLastKey (node : Option CompressedNode) (src : Nat) : Option Nat :=
  (firstAndLastKeys node src).map Prod.snd

/-- `split` when the key is not in the range of the plus and not before it. -/
def splitTree (src splitKey : Nat) (plus : Option CompressedNode) : NodeTree → Option SplitInfo
  | .null => some ⟨⟨copyNode plus, .null⟩, none, false⟩
  | .node lc (key, arr) rc _ _ =>
    if key < splitKey then do
      let lastKey ← getLastKey arr src
      if lastKey ≠ uintVMax ∧ splitKey ≤ lastKey then
        let (lt, gt, found) ← splitNode arr src splitKey
        return ⟨⟨copyNode plus, lc.nodeJoin .null (key, lt)⟩, ⟨gt, rc⟩, found⟩
      else
        let bstpair ← splitTree src splitKey .none rc
        return ⟨⟨copyNode plus, lc.nodeJoin bstpair.first.root (key, copyNode arr)⟩, bstpair.second,
          bstpair.removed⟩
    else if splitKey < key then do
      let bstpair ← splitTree src splitKey .none lc
      return ⟨⟨copyNode plus, bstpair.first.root⟩,
        ⟨bstpair.second.plus, bstpair.second.root.nodeJoin rc (key, copyNode arr)⟩, bstpair.removed⟩
    else return ⟨⟨copyNode plus, lc⟩, ⟨copyNode arr, rc⟩, true⟩

/-- `split`. -/
def split (t : NodePlus) (src splitKey : Nat) : Option SplitInfo :=
  if t.plus.isSome then do
    let (firstKey, lastKey) ← firstAndLastKeys t.plus src
    if firstKey ≤ splitKey ∧ splitKey ≤ lastKey then
      let (lt, gt, found) ← splitNode t.plus src splitKey
      return ⟨⟨lt, .null⟩, ⟨gt, t.root⟩, found⟩
    else if splitKey < firstKey then return ⟨none, ⟨copyNode t.plus, t.root⟩, false⟩
    else splitTree src splitKey t.plus t.root
  else splitTree src splitKey .none t.root

/-- `insert_rightmost`. -/
def insertRightmost (root : NodeTree) (toInsert : Option CompressedNode) (src : Nat) :
    Option NodeTree :=
  match root.last with
  | some e => (unionNodes e.2 toInsert src).map fun arr => root.insert (e.1, arr) fun _ b => b
  | .none => some root

/-- `join2`, with `join_plus_and_other` and `join_other_and_plus`. -/
def join2 (b1 b2 : NodePlus) (src : Nat) : Option NodePlus :=
  if b1.empty then some ⟨copyNode b2.plus, b2.root⟩
  else if b2.empty then some ⟨copyNode b1.plus, b1.root⟩
  else if b1.hasPlus && !b1.hasTree then
    (unionNodes b1.plus b2.plus src).map fun plus => ⟨plus, b2.root⟩
  else if b2.hasPlus && !b2.hasTree then
    (insertRightmost b1.root b2.plus src).map fun root => ⟨copyNode b1.plus, root⟩
  else
    let newB1Root := if b2.hasPlus then insertRightmost b1.root b2.plus src else some b1.root
    newB1Root.map fun root => ⟨copyNode b1.plus, root.join2 b2.root⟩

/-- The array in `create_new_key` of `union_bc`. -/
def unionFromIt (it : ReadIter) (deg : Nat) (keyArr : Option CompressedNode) (src : Nat) :
    Option (Option CompressedNode × ReadIter) :=
  if keyArr.isSome then unionItAndNode it deg keyArr src else copyFromIt it deg src

/-- `for (size_t i=0; i<deg; i++) it.next();` -/
def skipLoop : Nat → ReadIter → Option ReadIter
  | 0, it => some it
  | deg + 1, it => it.next.bind fun (_, it) => skipLoop deg it

/-- The array in `create_new_key` of `difference_bc_1`. -/
def differenceFromIt (it : ReadIter) (deg : Nat) (keyArr : Option CompressedNode) (src : Nat) :
    Option (Option CompressedNode × ReadIter) :=
  if keyArr.isSome then differenceItAndNode it deg keyArr src
  else (skipLoop deg it).map fun it => (.none, it)

/-- `generate_plus` and `generate_tree_node`. -/
def generateNode (src : Nat) (l : List Nat) : Option CompressedNode :=
  if l = [] then .none else ((WriteIter.create src l.length).compressAll l).finish

/-- The constructor from a sequence. -/
def ofSequence (S : List Nat) (src : Nat) : NodePlus :=
  if S = [] then none
  else ⟨generateNode src (S.take (TreePlus.firstInd S)), Tree.null.multiInsertSorted (fun _ b => b)
    ((TreePlus.kvSeq S).map fun e => (e.1, generateNode src e.2))⟩

end NodePlus

/-- The node holds the list, of 32-bit identifiers and no longer than a 16-bit degree
counts. -/
structure Chunk (src : Nat) (node : Option CompressedNode) (l : List Nat) : Prop where
  holds : Holds src node l
  valid : Neighbors l
  small : l.length < 2 ^ 16

/-- The edge tree of nodes holds the one of lists. -/
structure Stores (src : Nat) (stored : NodePlus) (t : TreePlus) : Prop where
  plus : Chunk src stored.plus t.plus
  root : Tree.Alike (Chunk src) stored.root t.root

section Chunks

variable {src key : Nat} {node l r : Option CompressedNode} {ls rs : List Nat}

theorem chunk_nil (src : Nat) : Chunk src .none [] :=
  ⟨rfl, ⟨List.Pairwise.nil, nofun⟩, by decide⟩

theorem Chunk.copy (chunk : Chunk src node ls) : Chunk src (copyNode node) ls :=
  ⟨chunk.holds.copy, chunk.valid, chunk.small⟩

theorem Chunk.nodeSize_eq (chunk : Chunk src node ls) : nodeSize node = ls.length := by
  have holds := chunk.holds
  cases node with
  | none =>
    obtain rfl : ls = [] := holds
    rfl
  | some node => exact holds.2.1

theorem Chunk.isSome_eq (chunk : Chunk src node ls) : node.isSome = (ls != []) := by
  cases ls with
  | nil =>
    rw [chunk.holds.eq_none]
    rfl
  | cons a ls => exact chunk.holds.isSome (List.cons_ne_nil a ls)

theorem Chunk.elements_eq (source : src < 2 ^ 32) (chunk : Chunk src node ls) :
    elements node src = some ls := by
  rw [elements, chunk.holds.deg_eq]
  exact (chunk.holds.yields source chunk.valid).take_eq

theorem Chunk.contains_eq (source : src < 2 ^ 32) (chunk : Chunk src node ls) :
    containsNode node src key = some (ls.contains key) := by
  rw [containsNode_eq source chunk.holds chunk.valid, List.contains_eq_mem]

theorem Chunk.firstAndLastKeys_eq (source : src < 2 ^ 32) (chunk : Chunk src node ls) :
    firstAndLastKeys node src = some (ls.headD uintVMax, TreePlus.getLastKey ls) := by
  cases ls with
  | nil =>
    rw [chunk.holds.eq_none]
    rfl
  | cons a ls =>
    rw [Zeppelin.Aspen.firstAndLastKeys_eq source chunk.holds chunk.valid, List.headD_cons,
      TreePlus.getLastKey, List.getLast_eq_getLastD, List.getLastD_cons]

theorem Chunk.split (source : src < 2 ^ 32) (chunk : Chunk src node ls) (key : Nat) :
    ∃ lt gt, splitNode node src key = some (lt, gt, ls.contains key) ∧
      Chunk src lt (ls.filter (· < key)) ∧ Chunk src gt (ls.filter (key < ·)) := by
  have parts : ∃ lt gt, splitNode node src key = some (lt, gt, decide (key ∈ ls)) ∧
      Holds src lt (ls.filter (· < key)) ∧ Holds src gt (ls.filter (key < ·)) :=
    splitNode_holds source chunk.holds chunk.valid chunk.small
  have part : ∀ p : Nat → Bool, Neighbors (ls.filter p) ∧ (ls.filter p).length < 2 ^ 16 := fun p =>
    ⟨⟨chunk.valid.ascending.filter p, fun x member => chunk.valid.fits x (List.mem_of_mem_filter member)⟩,
      (List.filter_sublist).length_le.trans_lt chunk.small⟩
  obtain ⟨lt, gt, done, low, high⟩ := parts
  refine ⟨lt, gt, ?_, ⟨low, (part _).1, (part _).2⟩, ⟨high, (part _).1, (part _).2⟩⟩
  rw [done, List.contains_eq_mem]

theorem Chunk.union (source : src < 2 ^ 32) (left : Chunk src l ls) (right : Chunk src r rs)
    (present : ls ≠ [] ∨ rs ≠ []) (small : (Ordered.union ls rs).length < 2 ^ 16) :
    ∃ node, unionNodes l r src = some node ∧ Chunk src node (Ordered.union ls rs) := by
  obtain ⟨node, done, holds⟩ := unionNodes_holds source left.holds right.holds left.valid
    right.valid present small
  refine ⟨node, done, holds, ⟨Ordered.pairwise_union left.valid.ascending right.valid.ascending,
    fun x member => ?_⟩, small⟩
  rcases Ordered.mem_union.mp member with first | second
  · exact left.valid.fits x first
  · exact right.valid.fits x second

theorem skipLoop_eq {it : ReadIter} {group rest : List Nat} (yields : it.Yields (group ++ rest)) :
    ∃ after, NodePlus.skipLoop group.length it = some after ∧ after.Yields rest := by
  induction group generalizing it with
  | nil => exact ⟨it, rfl, yields⟩
  | cons ngh group ih =>
    obtain ⟨next, first, others⟩ := yields
    obtain ⟨after, done, yields⟩ := ih others
    refine ⟨after, ?_, yields⟩
    rw [List.length_cons, NodePlus.skipLoop, first]
    exact done

/-- A group that is read from an iterator joins a chunk. -/
theorem Chunk.unionFromIt {it : ReadIter} {group rest : List Nat} (source : src < 2 ^ 32)
    (chunk : Chunk src node ls) (yields : it.Yields (group ++ rest)) (some' : group ≠ [])
    (valid : Neighbors group) (small : (Ordered.union group ls).length < 2 ^ 16) :
    ∃ arr after, NodePlus.unionFromIt it group.length node src = some (arr, after) ∧
      Chunk src arr (TreePlus.unionFromIt (group ++ rest) group.length ls).1 ∧
      after.Yields (TreePlus.unionFromIt (group ++ rest) group.length ls).2 := by
  rw [TreePlus.unionFromIt, List.take_left, List.drop_left, NodePlus.unionFromIt]
  have whole : Neighbors (Ordered.union group ls) := by
    refine ⟨Ordered.pairwise_union valid.ascending chunk.valid.ascending, fun x member => ?_⟩
    rcases Ordered.mem_union.mp member with first | second
    · exact valid.fits x first
    · exact chunk.valid.fits x second
  cases ls with
  | nil =>
    rw [Ordered.union_nil_right] at whole small ⊢
    obtain ⟨after, done, others⟩ := copyFromIt_eq src yields
    rw [chunk.isSome_eq, if_neg (by simp), done]
    exact ⟨_, _, rfl, ⟨holds_finish group.length small, whole, small⟩, others⟩
  | cons b ls =>
    obtain ⟨a, group, rfl⟩ := List.exists_cons_of_ne_nil some'
    have yieldsR := chunk.holds.yields source chunk.valid
    rw [← List.append_nil (b :: ls)] at yieldsR
    obtain ⟨after, _, done, others, -⟩ := unionIts_eq src yields yieldsR
    rw [chunk.isSome_eq, if_pos (by simp), unionItAndNode, chunk.holds.deg_eq, done]
    exact ⟨_, _, rfl, ⟨holds_finish _ small, whole, small⟩, others⟩

/-- A group that is read from an iterator is taken out of a chunk. -/
theorem Chunk.differenceFromIt {it : ReadIter} {group rest : List Nat} (source : src < 2 ^ 32)
    (chunk : Chunk src node ls) (yields : it.Yields (group ++ rest)) (some' : group ≠ []) :
    ∃ arr after, NodePlus.differenceFromIt it group.length node src = some (arr, after) ∧
      Chunk src arr (TreePlus.differenceFromIt (group ++ rest) group.length ls).1 ∧
      after.Yields (TreePlus.differenceFromIt (group ++ rest) group.length ls).2 := by
  rw [TreePlus.differenceFromIt, List.take_left, List.drop_left, NodePlus.differenceFromIt,
    chunk.isSome_eq]
  cases ls with
  | nil =>
    obtain ⟨after, done, others⟩ := skipLoop_eq yields
    rw [if_neg (by simp), if_neg (by simp), done]
    exact ⟨_, _, rfl, chunk_nil src, others⟩
  | cons b ls =>
    obtain ⟨a, group, rfl⟩ := List.exists_cons_of_ne_nil some'
    have yieldsR := chunk.holds.yields source chunk.valid
    rw [← List.append_nil (b :: ls)] at yieldsR
    obtain ⟨after, _, done, others⟩ := differenceIts_eq src yields yieldsR
    have sublist := Ordered.difference_sublist (a :: group) (b :: ls)
    have small := sublist.length_le.trans_lt chunk.small
    rw [if_pos (by simp), if_pos (List.cons_ne_nil b ls), differenceItAndNode, chunk.holds.deg_eq,
      done]
    exact ⟨_, _, rfl, ⟨holds_finish _ small, ⟨chunk.valid.ascending.sublist sublist,
      fun x member => chunk.valid.fits x (sublist.subset member)⟩, small⟩, others⟩

theorem chunk_generateNode (src : Nat) (valid : Neighbors ls) (small : ls.length < 2 ^ 16) :
    Chunk src (NodePlus.generateNode src ls) ls := by
  rw [NodePlus.generateNode]
  split
  next none =>
    rw [none]
    exact chunk_nil src
  next => exact ⟨holds_finish ls.length small, valid, small⟩

/-- A node that holds a set holds the set's list. -/
theorem isChunk_iff_chunk {S : Finset Nat} : IsChunk src node S ↔ Chunk src node S.sort := by
  constructor
  · rintro ⟨holds, fits, small⟩
    exact ⟨holds, IsChunk.neighbors ⟨holds, fits, small⟩, by rwa [Finset.length_sort]⟩
  · rintro ⟨holds, valid, small⟩
    exact ⟨holds, fun x member => valid.fits x ((Finset.mem_sort _).mpr member),
      by rwa [Finset.length_sort] at small⟩

theorem augAlike (src : Nat) : Tree.AugAlike (A := Nat) Nat (Chunk src) :=
  ⟨fun _ _ alike => congrArg (1 + ·) alike.2.nodeSize_eq, fun _ _ => rfl⟩

end Chunks

namespace Stores

variable {src : Nat} {stored b1 b2 : NodePlus} {t t1 t2 : TreePlus}

section Queries

theorem none (src : Nat) : Stores src .none .none := ⟨chunk_nil src, .null⟩

theorem degree_eq (stores : Stores src stored t) : stored.degree = t.degree := by
  obtain ⟨node, root⟩ := stored
  obtain ⟨plus, lists⟩ := t
  obtain ⟨chunk, alike⟩ := stores
  rw [NodePlus.degree, TreePlus.degree, chunk.nodeSize_eq]
  cases alike with
  | null => rfl
  | node left entry right => rfl

theorem contains_eq (source : src < 2 ^ 32) (stores : Stores src stored t) (ngh : Nat) :
    stored.contains src ngh = some (t.contains ngh) := by
  have found := stores.root.previousOrEqLoop ngh .none
  unfold NodePlus.contains TreePlus.contains Tree.previousOrEq
  generalize stored.root.previousOrEqLoop ngh .none = e at found ⊢
  generalize t.root.previousOrEqLoop ngh .none = d at found ⊢
  cases found with
  | none => exact stores.plus.contains_eq source
  | some entry =>
    obtain ⟨key, chunk⟩ := entry
    simp only [key]
    split
    next same => rw [beq_iff_eq.mpr same, Bool.true_or]
    next other => rw [beq_eq_false_iff_ne.mpr other, Bool.false_or, chunk.contains_eq source]

theorem mapM_elements (source : src < 2 ^ 32) {es : List (Nat × Option CompressedNode)}
    {ds : List (Nat × List Nat)} (alike : List.Forall₂ (Tree.AlikeEntry (Chunk src)) es ds) :
    es.mapM (fun e => (elements e.2 src).map (e.1 :: ·)) = some (ds.map fun d => d.1 :: d.2) := by
  induction alike with
  | nil => rfl
  | cons entry rest ih =>
    rw [List.mapM_cons, entry.2.elements_eq source, ih, entry.1]
    rfl

/-- The neighbours are visited as they are in the lists. -/
theorem elements_eq (source : src < 2 ^ 32) (stores : Stores src stored t) :
    stored.elements src = some t.elements := by
  rw [NodePlus.elements, stores.plus.elements_eq source,
    mapM_elements source stores.root.entries, TreePlus.elements, List.flatMap_def]
  rfl

end Queries

section Split

/-- The parts are stored, and the key was found in both. -/
structure Parts (src : Nat) (stored : NodePlus.SplitInfo) (info : TreePlus.SplitInfo) : Prop where
  first : Stores src stored.first info.first
  second : Stores src stored.second info.second
  removed : stored.removed = info.removed

theorem getLastKey_eq (source : src < 2 ^ 32) {node : Option CompressedNode} {l : List Nat}
    (chunk : Chunk src node l) :
    NodePlus.getLastKey node src = some (TreePlus.getLastKey l) := by
  rw [NodePlus.getLastKey, chunk.firstAndLastKeys_eq source]
  rfl

theorem splitTree (source : src < 2 ^ 32) (key : Nat) {root : NodeTree} {lists : EdgeList}
    (alike : Tree.Alike (Chunk src) root lists) {node : Option CompressedNode} {plus : List Nat}
    (chunk : Chunk src node plus) :
    ∃ info, NodePlus.splitTree src key node root = some info ∧
      Parts src info (TreePlus.splitTree key plus lists) := by
  induction alike generalizing node plus with
  | null => exact ⟨_, rfl, ⟨chunk.copy, .null⟩, none src, rfl⟩
  | @node lc rc lc' rc' e d s aug left entry right ihl ihr =>
    obtain ⟨k, arr⟩ := e
    obtain ⟨k', c⟩ := d
    obtain ⟨rfl, held⟩ : k = k' ∧ Chunk src arr c := entry
    rw [NodePlus.splitTree, TreePlus.splitTree, getLastKey_eq source held]
    by_cases less : k < key
    · rw [if_pos less, if_pos less, Option.bind_eq_bind, Option.bind_some]
      by_cases inside : TreePlus.getLastKey c ≠ uintVMax ∧ key ≤ TreePlus.getLastKey c
      · obtain ⟨lt, gt, done, low, high⟩ := held.split source key
        rw [if_pos inside, if_pos inside, done]
        exact ⟨_, rfl, ⟨chunk.copy, left.nodeJoin (augAlike src) .null ⟨rfl, low⟩⟩, ⟨high, right⟩, rfl⟩
      · obtain ⟨info, done, first, second, removed⟩ := ihr (chunk_nil src)
        rw [if_neg inside, if_neg inside, done]
        exact ⟨_, rfl, ⟨chunk.copy, left.nodeJoin (augAlike src) first.root ⟨rfl, held.copy⟩⟩,
          second, removed⟩
    · rw [if_neg less, if_neg less]
      by_cases more : key < k
      · obtain ⟨info, done, first, ⟨rest, upper⟩, removed⟩ := ihl (chunk_nil src)
        rw [if_pos more, if_pos more, done]
        have high : Stores src
            ⟨info.second.plus, info.second.root.nodeJoin rc (k, copyNode arr)⟩
            ⟨(TreePlus.splitTree key [] lc').second.plus,
              (TreePlus.splitTree key [] lc').second.root.nodeJoin rc' (k, c)⟩ :=
          ⟨rest, upper.nodeJoin (augAlike src) right ⟨rfl, held.copy⟩⟩
        exact ⟨_, rfl, ⟨chunk.copy, first.root⟩, high, removed⟩
      · rw [if_neg more, if_neg more]
        exact ⟨_, rfl, ⟨chunk.copy, left⟩, ⟨held.copy, right⟩, rfl⟩

/-- `split` on the nodes is the one on the lists. -/
theorem split (source : src < 2 ^ 32) (stores : Stores src stored t) (key : Nat) :
    ∃ info, stored.split src key = some info ∧ Parts src info (t.split key) := by
  obtain ⟨node, root⟩ := stored
  obtain ⟨plus, lists⟩ := t
  obtain ⟨chunk, alike⟩ := stores
  have keys := chunk.firstAndLastKeys_eq source
  have present := chunk.isSome_eq
  simp only at chunk alike keys present
  rw [NodePlus.split, TreePlus.split]
  cases plus with
  | nil =>
    rw [if_neg (by rw [present]; decide)]
    exact splitTree source key alike (chunk_nil src)
  | cons firstKey rest =>
    rw [if_pos (by rw [present]; rfl)]
    simp only [keys, Option.bind_eq_bind, Option.bind_some, List.headD_cons]
    split
    next inside =>
      obtain ⟨lt, gt, done, low, high⟩ := chunk.split source key
      rw [done]
      exact ⟨_, rfl, ⟨low, .null⟩, ⟨high, alike⟩, rfl⟩
    next =>
      split
      next => exact ⟨_, rfl, none src, ⟨chunk.copy, alike⟩, rfl⟩
      next => exact splitTree source key alike chunk

end Split

section Joins

theorem mem_entries_insert (e : Nat × List Nat) (root : EdgeList) :
    e ∈ (root.insert e fun _ b => b).entries := by
  induction root with
  | null => exact List.mem_singleton_self e
  | node lc o rc s aug ihl ihr =>
    rw [Tree.insert]
    rcases lt_trichotomy o.1 e.1 with less | same | more
    · rw [if_pos less, Tree.entries_nodeJoin]
      exact List.mem_append_right _ (List.mem_cons_of_mem _ ihr)
    · rw [if_neg (by omega), if_neg (by omega), Tree.entries_nodeJoin, same]
      exact List.mem_append_right _ (List.mem_cons_self ..)
    · rw [if_neg (by omega), if_pos more, Tree.entries_nodeJoin]
      exact List.mem_append_left _ ihl

theorem insertRightmost (source : src < 2 ^ 32) {root : NodeTree} {lists : EdgeList}
    (alike : Tree.Alike (Chunk src) root lists) {node : Option CompressedNode} {q : List Nat}
    (chunk : Chunk src node q) (present : q ≠ [])
    (fits : ∀ e ∈ (TreePlus.insertRightmost lists q).entries, e.2.length < 2 ^ 16) :
    ∃ joined, NodePlus.insertRightmost root node src = some joined ∧
      Tree.Alike (Chunk src) joined (TreePlus.insertRightmost lists q) := by
  have last := alike.last
  rw [NodePlus.insertRightmost]
  rw [TreePlus.insertRightmost] at fits ⊢
  generalize root.last = e at last
  generalize lists.last = d at last fits
  cases last with
  | none => exact ⟨root, rfl, alike⟩
  | @some e d entry =>
    have small := fits _ (mem_entries_insert (d.1, Ordered.union d.2 q) lists)
    obtain ⟨arr, done, held⟩ := entry.2.union source chunk (.inr present) small
    simp only [done]
    exact ⟨_, rfl, alike.insert (augAlike src) ⟨entry.1, held⟩⟩

theorem shape_eq (stores : Stores src stored t) : stored.hasPlus = t.hasPlus ∧
    stored.hasTree = t.hasTree ∧ stored.empty = t.empty := by
  obtain ⟨node, root⟩ := stored
  obtain ⟨plus, lists⟩ := t
  obtain ⟨chunk, alike⟩ := stores
  have present : node.isSome = (plus != []) := chunk.isSome_eq
  have absent : node.isNone = (plus == []) := by
    rw [← Option.not_isSome, present, bne, Bool.not_not]
  refine ⟨present, ?_, ?_⟩
  · cases alike with
    | null => rfl
    | node left entry right => rfl
  · rw [NodePlus.empty, TreePlus.empty, absent]
    cases alike with
    | null => rfl
    | node left entry right => rfl

/-- `join2` on the nodes is the one on the lists, when what it joins fits in a node. -/
theorem join2 (source : src < 2 ^ 32) (first : Stores src b1 t1) (second : Stores src b2 t2)
    (fits : (t1.join2 t2).Fits) :
    ∃ joined, b1.join2 b2 src = some joined ∧ Stores src joined (t1.join2 t2) := by
  obtain ⟨plus1, tree1, empty1⟩ := first.shape_eq
  obtain ⟨plus2, tree2, empty2⟩ := second.shape_eq
  rw [NodePlus.join2, plus1, tree1, empty1, plus2, tree2, empty2]
  rw [TreePlus.join2] at fits ⊢
  by_cases none1 : t1.empty = true
  · rw [if_pos none1, if_pos none1]
    exact ⟨_, rfl, second.plus.copy, second.root⟩
  rw [if_neg none1] at fits ⊢
  rw [if_neg none1]
  by_cases none2 : t2.empty = true
  · rw [if_pos none2, if_pos none2]
    exact ⟨_, rfl, first.plus.copy, first.root⟩
  rw [if_neg none2] at fits ⊢
  rw [if_neg none2]
  have some : ∀ {b : Bool} {t : TreePlus}, (t.hasPlus && b) = true → t.plus ≠ [] := by
    intro b t both
    exact bne_iff_ne.mp (Bool.and_eq_true_iff.mp both).1
  by_cases list1 : (t1.hasPlus && !t1.hasTree) = true
  · rw [if_pos list1] at fits ⊢
    rw [if_pos list1]
    obtain ⟨plus, done, held⟩ := first.plus.union source second.plus (.inl (some list1)) fits.1
    rw [done]
    exact ⟨_, rfl, held, second.root⟩
  rw [if_neg list1] at fits ⊢
  rw [if_neg list1]
  by_cases list2 : (t2.hasPlus && !t2.hasTree) = true
  · rw [if_pos list2] at fits ⊢
    rw [if_pos list2]
    obtain ⟨root, done, alike⟩ :=
      insertRightmost source first.root second.plus (some list2) fits.2
    rw [done]
    exact ⟨_, rfl, first.plus.copy, alike⟩
  rw [if_neg list2] at fits ⊢
  rw [if_neg list2]
  have chunks := fits.2
  simp only [Tree.entries_join2, List.mem_append] at chunks
  by_cases moves : t2.hasPlus = true
  · simp only [if_pos moves] at chunks ⊢
    obtain ⟨root, done, alike⟩ := insertRightmost source first.root second.plus (bne_iff_ne.mp moves)
      fun e member => chunks e (.inl member)
    rw [done]
    exact ⟨_, rfl, first.plus.copy, alike.join2 (augAlike src) second.root⟩
  · simp only [if_neg moves]
    exact ⟨_, rfl, first.plus.copy, first.root.join2 (augAlike src) second.root⟩

end Joins

section Constructor

variable {l : List Nat}

/-- The constructor stores the edge tree of its sequence. -/
theorem ofSequence (src : Nat) (ascending : l.Pairwise (· < ·)) (within : ∀ x ∈ l, x < uintVMax)
    (short : Ordered.RunsBelow TreePlus.IsHead (2 ^ 16) l) :
    Stores src (NodePlus.ofSequence l src) (TreePlus.ofSequence l) := by
  have set := TreePlus.isSet_ofSequence ascending within
  have same : (TreePlus.ofSequence l).elements = l :=
    set.lists_elements.unique ⟨ascending, fun x => Iff.rfl⟩
  have fits := set.fits_iff.mpr (same.symm ▸ short)
  have small : uintVMax < 2 ^ 32 := by decide
  have valid : ∀ {part : List Nat}, part.Sublist l → Neighbors part := fun inside =>
    ⟨ascending.sublist inside, fun x member => (within x (inside.subset member)).trans small⟩
  rw [NodePlus.ofSequence]
  rw [TreePlus.ofSequence] at fits ⊢
  split at fits
  next none =>
    rw [if_pos none, if_pos none]
    exact Stores.none src
  next some =>
    rw [if_neg some, if_neg some]
    refine ⟨chunk_generateNode src (valid (List.take_sublist _ _)) fits.1, ?_⟩
    have chunks : ∀ e ∈ TreePlus.kvSeq l, e.2.length < 2 ^ 16 := by
      have entries : (Tree.fromArray (TreePlus.kvSeq l) : EdgeList).entries = TreePlus.kvSeq l :=
        Tree.entries_fromArray _
      intro e member
      exact fits.2 e (entries.symm ▸ member)
    refine Tree.Alike.fromArray (augAlike src) (List.forall₂_map_left_iff.mpr ?_)
    refine List.forall₂_same.mpr fun e member => ⟨rfl, chunk_generateNode src (valid ?_) (chunks e member)⟩
    obtain ⟨p, -, rfl⟩ := List.mem_map.mp member
    exact (List.drop_sublist _ _).trans (List.take_sublist _ _)

end Constructor

end Stores

namespace NodePlus

variable {src : Nat} (source : src < 2 ^ 32)

include source

/-- A sequence is read back from the bytes of its edge tree, and the bytes answer for it. -/
theorem ofSequence_answers {l : List Nat} (ascending : l.Pairwise (· < ·))
    (within : ∀ x ∈ l, x < uintVMax) (short : Ordered.RunsBelow TreePlus.IsHead (2 ^ 16) l) :
    (ofSequence l src).elements src = some l ∧ (ofSequence l src).degree = l.length ∧
      ∀ ngh, (ofSequence l src).contains src ngh = some (decide (ngh ∈ l)) := by
  have stores := Stores.ofSequence src ascending within short
  have set := TreePlus.isSet_ofSequence ascending within
  have same : (TreePlus.ofSequence l).elements = l :=
    set.lists_elements.unique ⟨ascending, fun x => Iff.rfl⟩
  refine ⟨?_, ?_, fun ngh => ?_⟩
  · rw [stores.elements_eq source, same]
  · rw [stores.degree_eq, set.degree_eq, same]
  · rw [stores.contains_eq source, Option.some_inj, Bool.eq_iff_iff, set.contains_iff,
      decide_eq_true_eq, Set.mem_ofPred_eq]

/-- The nodes of a tree are cut at a key and put together without it. -/
theorem join2_split_reads {stored : NodePlus} {t : TreePlus} {S : Set Nat}
    (stores : Stores src stored t) (set : TreePlus.IsSet t S) (key : Nat)
    (short : Ordered.RunsBelow TreePlus.IsHead (2 ^ 16) (t.elements.filter (· ≠ key))) :
    ∃ info joined, stored.split src key = some info ∧
      info.first.join2 info.second src = some joined ∧
      joined.elements src = some (t.elements.filter (· ≠ key)) := by
  obtain ⟨erased, same⟩ := set.join2_split key
  obtain ⟨info, cut, parts⟩ := stores.split source key
  obtain ⟨joined, done, held⟩ := Stores.join2 source parts.first parts.second
    (erased.fits_iff.mpr (same.symm ▸ short))
  exact ⟨info, joined, cut, done, by rw [held.elements_eq source, same]⟩

end NodePlus

end Zeppelin.Aspen
