import Zeppelin.Aspen.TreePlusSet
import Mathlib.Data.List.GetD
import Mathlib.Data.Set.Card

/-! What an edge tree answers, and the edge tree of a sequence. The constructor
works with indices of heads; the indices give the segments of the sequence. -/
namespace Zeppelin.Aspen.TreePlus

open Ordered

variable {S : Set Nat} {plus c : List Nat} {root lc rc : EdgeList} {k : Nat}

section Queries

theorem elements_node {s aug : Nat} : elements ⟨plus, .node lc (k, c) rc s aug⟩ =
    elements ⟨plus, lc⟩ ++ k :: elements ⟨c, rc⟩ := by
  simp only [elements, Tree.entries, List.flatMap_append, List.flatMap_cons, List.append_assoc,
    List.cons_append]

/-- The neighbours are visited in ascending order. -/
theorem IsSet.lists_elements {t : TreePlus} (set : IsSet t S) : Lists t.elements S := by
  obtain ⟨plus, root⟩ := t
  induction root generalizing plus S with
  | null =>
    have lists := (isSet_leaf_iff.mp set).1
    rwa [elements, Tree.entries, List.flatMap_nil, List.append_nil]
  | node lc e rc s aug ihl ihr =>
    obtain ⟨k, c⟩ := e
    obtain ⟨member, -, left, right⟩ := set.node
    rw [elements_node]
    exact (ihl plus left).append_cons (ihr c right) member

theorem fits_node {s aug : Nat} : Fits ⟨plus, .node lc (k, c) rc s aug⟩ ↔
    Fits ⟨plus, lc⟩ ∧ Fits ⟨c, rc⟩ := by
  simp only [Fits, Tree.entries, List.mem_append, List.mem_cons]
  constructor
  · rintro ⟨short, chunks⟩
    exact ⟨⟨short, fun e early => chunks e (.inl early)⟩, chunks (k, c) (.inr (.inl rfl)),
      fun e late => chunks e (.inr (.inr late))⟩
  · rintro ⟨⟨short, low⟩, here, high⟩
    refine ⟨short, ?_⟩
    rintro e (early | rfl | late)
    · exact low e early
    · exact here
    · exact high e late

/-- The chunks of a set are the runs of its neighbours without a head. -/
theorem IsSet.fits_iff {t : TreePlus} (set : IsSet t S) :
    t.Fits ↔ RunsBelow IsHead (2 ^ 16) t.elements := by
  obtain ⟨plus, root⟩ := t
  induction root generalizing plus S with
  | null =>
    obtain ⟨lists, noHead, -⟩ := isSet_leaf_iff.mp set
    rw [elements, Tree.entries, List.flatMap_nil, List.append_nil,
      runsBelow_iff_length fun x member => noHead x ((lists.mem_iff x).mp member)]
    exact ⟨And.left, fun short => ⟨short, fun e none => absurd none List.not_mem_nil⟩⟩
  | node lc e rc s aug ihl ihr =>
    obtain ⟨k, c⟩ := e
    obtain ⟨-, isHead, left, right⟩ := set.node
    rw [fits_node, elements_node, runsBelow_append_cons isHead, ihl plus left, ihr c right]

theorem augVal_update (e : Nat × List Nat) :
    (Tree.update lc e rc).augVal = lc.augVal + (1 + e.2.length) + rc.augVal := by
  cases lc with
  | null =>
    cases rc with
    | null => exact (Nat.zero_add _).symm
    | node => exact congrArg (· + _) (Nat.zero_add _).symm
  | node =>
    cases rc with
    | null => rfl
    | node => rfl

/-- The augmented value counts the neighbours at and after the heads. -/
theorem augVal_eq (cached : root.Cached) :
    root.augVal = (root.entries.flatMap fun e => e.1 :: e.2).length := by
  induction root with
  | null => rfl
  | node lc e rc s aug ihl ihr =>
    obtain ⟨same, left, right⟩ := cached
    rw [same, Tree.entries_update, List.flatMap_append, List.flatMap_cons, List.length_append,
      List.length_append, ← ihl left, ← ihr right, List.length_cons]
    rw [augVal_update]
    omega

theorem IsSet.degree_eq {t : TreePlus} (set : IsSet t S) : t.degree = t.elements.length := by
  obtain ⟨f, map, -⟩ := set.map
  rw [degree, augVal_eq map.cached, elements, List.length_append]

/-- A neighbour is looked for in the chunk of the last head that is not after it. -/
theorem IsSet.contains_iff {t : TreePlus} (set : IsSet t S) (ngh : Nat) :
    t.contains ngh = true ↔ ngh ∈ S := by
  obtain ⟨f, map, segmented⟩ := set.map
  obtain ⟨ordered, value⟩ := map.represents
  rw [contains, Tree.previousOrEq_eq ordered]
  have heads : ∀ y ∈ S, IsHead y → y ≤ ngh →
      ∃ c, (y, c) ∈ t.root.entries.filter fun e => e.1 ≤ ngh := by
    intro y there isHead order
    obtain ⟨c, found⟩ := (segmented.keys y).mpr ⟨there, isHead⟩
    exact ⟨c, List.mem_filter.mpr ⟨(value y c).mpr found, decide_eq_true order⟩⟩
  cases last : (t.root.entries.filter fun e => e.1 ≤ ngh).getLast? with
  | none =>
    rw [List.getLast?_eq_none_iff] at last
    simp only [List.contains_iff_mem, segmented.plus.mem_iff]
    refine ⟨And.left, fun there => ⟨there, fun y other isHead => ?_⟩⟩
    by_contra order
    obtain ⟨c, here⟩ := heads y other isHead (not_lt.mp order)
    rw [last] at here
    exact absurd here List.not_mem_nil
  | some e =>
    obtain ⟨k, c⟩ := e
    obtain ⟨front, whole⟩ := List.getLast?_eq_some_iff.mp last
    obtain ⟨inside, early⟩ := List.mem_filter.mp (List.mem_of_getLast? last)
    have early : k ≤ ngh := of_decide_eq_true early
    have found := (value k c).mp inside
    have member := ((segmented.keys k).mp ⟨c, found⟩).1
    simp only [Bool.or_eq_true, beq_iff_eq, List.contains_iff_mem,
      (segmented.chunk k c found).mem_iff]
    constructor
    · rintro (rfl | leads)
      · exact member
      · exact leads.1.1
    · intro there
      rcases early.eq_or_lt with same | less
      · exact .inl same
      · refine .inr ⟨⟨there, less⟩, fun y other isHead => ?_⟩
        -- a head in between would be a later entry
        by_contra order
        obtain ⟨d, here⟩ := heads y other.1 isHead (not_lt.mp order)
        have sorted := ordered.filter fun e => decide (e.1 ≤ ngh)
        rw [whole] at here sorted
        rcases List.mem_append.mp here with earlier | same
        · have before := (List.pairwise_append.mp sorted).2.2 _ earlier _ (List.mem_singleton_self _)
          exact lt_asymm before other.2
        · obtain ⟨same, -⟩ := Prod.ext_iff.mp (List.mem_singleton.mp same)
          exact (ne_of_gt other.2) same

end Queries

section Constructor

variable {l : List Nat} {x : Nat}

instance : DecidablePred IsHead := fun x => inferInstanceAs (Decidable (isHead x = true))

theorem headIndices_cons : headIndices (x :: l) =
    (if isHead x then [0] else []) ++ (headIndices l).map (· + 1) := by
  rw [headIndices, List.length_cons, List.range_succ_eq_map, List.filter_cons, List.filter_map]
  split
  next head =>
    rw [List.getD_cons_zero] at head
    rw [if_pos head]
    rfl
  next other =>
    rw [List.getD_cons_zero] at other
    rw [if_neg other]
    rfl

theorem getD_shifted (i : Nat) : ((headIndices l).map (· + 1)).getD i (x :: l).length =
    (headIndices l).getD i l.length + 1 := List.getD_map (headIndices l) l.length (· + 1)

/-- The first of the indices is that of the first head. -/
theorem headIndices_getD : (headIndices l).getD 0 l.length = l.findIdx isHead := by
  induction l with
  | nil => rfl
  | cons x l ih =>
    rw [headIndices_cons, List.findIdx_cons]
    cases isHead x with
    | true => rfl
    | false => exact (getD_shifted 0).trans (congrArg (· + 1) ih)

theorem segments_fst : (segments IsHead l).1 = l.take (l.findIdx isHead) := by
  induction l with
  | nil => rfl
  | cons x l ih =>
    rw [segments, List.findIdx_cons]
    by_cases head : isHead x = true
    · rw [if_pos (show IsHead x from head), head]
      rfl
    · rw [if_neg (show ¬IsHead x from head), Bool.eq_false_iff.mpr head]
      exact congrArg (x :: ·) ih

/-- One entry, from the indices of the rest of the sequence. -/
theorem entry_shifted (h i : Nat) : ((x :: l).getD (h + 1) 0,
    ((x :: l).take (((headIndices l).map (· + 1)).getD i (x :: l).length)).drop (h + 1 + 1)) =
    (l.getD h 0, (l.take ((headIndices l).getD i l.length)).drop (h + 1)) := by
  rw [getD_shifted]
  rfl

theorem kvSeq_eq : kvSeq l = (segments IsHead l).2 := by
  induction l with
  | nil => rfl
  | cons x l ih =>
    rw [segments, kvSeq, headIndices_cons]
    by_cases head : isHead x = true
    · rw [if_pos (show IsHead x from head), if_pos head, List.singleton_append, List.zipIdx_cons,
        List.map_cons, segments_fst, ← headIndices_getD, ← ih, kvSeq, List.zipIdx_map,
        List.map_map, List.zipIdx_succ, List.map_map]
      refine congrArg₂ (· :: ·) ?_ (List.map_congr_left fun p _ => entry_shifted p.1 (p.2 + 1))
      change (x, ((x :: l).take (((headIndices l).map (· + 1)).getD 0 (x :: l).length)).drop 1) = _
      rw [getD_shifted]
      rfl
    · rw [if_neg (show ¬IsHead x from head), if_neg head, List.nil_append, ← ih, kvSeq,
        List.zipIdx_map, List.map_map]
      exact List.map_congr_left fun p _ => entry_shifted p.1 (p.2 + 1)

theorem scanl_eq_cons {f : Nat → Nat → Nat} (a : Nat) (r : List Nat) :
    r.scanl f a = a :: (r.scanl f a).tail := by
  cases r with
  | nil =>
    rw [List.scanl_nil]
    rfl
  | cons b r => rw [List.scanl_cons, List.tail_cons]

/-- The copy scan passes the first head at its index. -/
theorem findIdx_scan (p : Nat → Bool) {top i : Nat} (small : i + l.length ≤ top) :
    ((((l.zipIdx i).map fun (v, i) => if p v then i else top).scanl
      (fun l r => if r = top then l else r) top).tail).findIdx (· != top) = l.findIdx p := by
  induction l generalizing i with
  | nil =>
    rw [List.zipIdx_nil, List.map_nil, List.scanl_nil]
    rfl
  | cons x l ih =>
    rw [List.length_cons] at small
    have other : i ≠ top := by omega
    rw [List.zipIdx_cons, List.map_cons, List.scanl_cons, List.tail_cons, scanl_eq_cons,
      List.findIdx_cons, List.findIdx_cons]
    by_cases head : p x = true
    · simp [head, other, bne_iff_ne.mpr other]
    · simp [head, ih (i := i + 1) (by omega)]

theorem firstInd_eq (small : l.length ≤ uintVMax) : firstInd l = l.findIdx isHead :=
  findIdx_scan isHead (by omega)

/-- The tree of a sequence holds the sequence. -/
theorem isSet_ofSequence (ascending : l.Pairwise (· < ·)) (within : ∀ x ∈ l, x < uintVMax) :
    IsSet (ofSequence l) {x | x ∈ l} := by
  rw [ofSequence]
  split
  next empty =>
    refine isSet_none.congr fun x => ?_
    rw [empty]
    exact ⟨nofun, fun member => absurd member List.not_mem_nil⟩
  next =>
    have small : l.length ≤ uintVMax := by
      have nodup : l.Nodup := ascending.imp fun less => less.ne
      have subset : l.toFinset ⊆ Finset.range uintVMax := fun x member =>
        Finset.mem_range.mpr (within x (List.mem_toFinset.mp member))
      calc
        l.length = l.toFinset.card := (List.toFinset_card_of_nodup nodup).symm
        _ ≤ (Finset.range uintVMax).card := Finset.card_le_card subset
        _ = uintVMax := Finset.card_range uintVMax
    have segments : ∃ f, Represents (segments IsHead l).2 f ∧
        Segmented IsHead {x | x ∈ l} (segments IsHead l).1 f := segmented_segments ascending
    obtain ⟨f, represents, segmented⟩ := segments
    rw [firstInd_eq small, ← segments_fst, kvSeq_eq]
    refine ⟨⟨f, Tree.isMap_fromArray room represents fun k v found => ?_, segmented⟩, within⟩
    exact Finset.mem_range.mpr (within k ((segmented.keys k).mp ⟨v, found⟩).1)

/-- A sequence whose runs fit in the nodes is read back from its tree, and the tree
answers for it. -/
theorem ofSequence_reads_back (ascending : l.Pairwise (· < ·)) (within : ∀ x ∈ l, x < uintVMax)
    (short : RunsBelow IsHead (2 ^ 16) l) :
    (ofSequence l).Fits ∧ (ofSequence l).elements = l ∧ (ofSequence l).degree = l.length ∧
      ∀ ngh, (ofSequence l).contains ngh = decide (ngh ∈ l) := by
  have set := isSet_ofSequence ascending within
  have same : (ofSequence l).elements = l :=
    set.lists_elements.unique ⟨ascending, fun x => Iff.rfl⟩
  refine ⟨set.fits_iff.mpr (same.symm ▸ short), same, ?_, fun ngh => ?_⟩
  · rw [set.degree_eq, same]
  · rw [Bool.eq_iff_iff, set.contains_iff, decide_eq_true_eq, Set.mem_ofPred_eq]

/-- The heads are `300` and `1724`. -/
theorem ofSequence_reads_back_two : (ofSequence [5, 299, 300, 301, 1724]).Fits ∧
    (ofSequence [5, 299, 300, 301, 1724]).elements = [5, 299, 300, 301, 1724] ∧
    (ofSequence [5, 299, 300, 301, 1724]).degree = 5 ∧
    ∀ ngh, (ofSequence [5, 299, 300, 301, 1724]).contains ngh =
      decide (ngh ∈ [5, 299, 300, 301, 1724]) :=
  ofSequence_reads_back (by decide) (by decide) (runsBelow_of_length (by decide))

/-- The parts of a split are visited as the smaller and the greater neighbours. -/
theorem IsSet.split_elements {t : TreePlus} (set : IsSet t S) (key : Nat) :
    (t.split key).first.elements = t.elements.filter (· < key) ∧
      (t.split key).second.elements = t.elements.filter (key < ·) ∧
      (t.split key).removed = t.elements.contains key := by
  obtain ⟨low, high, removed⟩ := set.split key
  have whole := set.lists_elements
  refine ⟨low.lists_elements.unique ((whole.filter _).congr fun x => ?_),
    high.lists_elements.unique ((whole.filter _).congr fun x => ?_), ?_⟩
  · rw [Set.mem_ofPred_eq, decide_eq_true_eq]
    rfl
  · rw [Set.mem_ofPred_eq, decide_eq_true_eq]
    rfl
  · rw [Bool.eq_iff_iff, removed, List.contains_iff_mem, whole.mem_iff]

/-- The parts of a tree that is split are valid, and they are visited as the
smaller and the greater neighbours of the whole. -/
theorem split_visits_parts {t : TreePlus} (set : IsSet t S) (key : Nat) :
    IsSet (t.split key).first (S ∩ Set.Iio key) ∧ IsSet (t.split key).second (S ∩ Set.Ioi key) ∧
      (t.split key).first.elements = t.elements.filter (· < key) ∧
      (t.split key).second.elements = t.elements.filter (key < ·) ∧
      (t.split key).removed = t.elements.contains key := by
  obtain ⟨low, high, -⟩ := set.split key
  exact ⟨low, high, set.split_elements key⟩

/-- A cut inside the chunk of the head `300`. -/
theorem split_visits_parts_two :
    let t := ofSequence [5, 299, 300, 301, 302, 1724]
    let S := {x | x ∈ [5, 299, 300, 301, 302, 1724]}
    IsSet (t.split 301).first (S ∩ Set.Iio 301) ∧ IsSet (t.split 301).second (S ∩ Set.Ioi 301) ∧
      (t.split 301).first.elements = t.elements.filter (· < 301) ∧
      (t.split 301).second.elements = t.elements.filter (301 < ·) ∧
      (t.split 301).removed = t.elements.contains 301 :=
  split_visits_parts (isSet_ofSequence (by decide) (by decide)) 301

end Constructor

section Joins

variable {T Q : Set Nat} {q : List Nat}

theorem IsSet.key_mem {e : Nat × List Nat} (set : IsSet ⟨plus, root⟩ S) (member : e ∈ root.entries) :
    e.1 ∈ S := by
  refine (set.lists_elements.mem_iff e.1).mp (List.mem_append_right plus ?_)
  exact List.mem_flatMap.mpr ⟨e, member, List.mem_cons_self ..⟩

/-- Neighbours after all others go to the chunk of the last head. -/
theorem isSet_insertRightmost (set : IsSet ⟨plus, root⟩ S) (present : root ≠ .null)
    (lists : Lists q Q) (late : ∀ x ∈ S, ∀ y ∈ Q, x < y)
    (plain : ∀ y ∈ Q, ¬IsHead y ∧ y < uintVMax) :
    IsSet ⟨plus, insertRightmost root q⟩ (S ∪ Q) := by
  induction root generalizing plus S with
  | null => exact absurd rfl present
  | node lc e rc s aug ihl ihr =>
    obtain ⟨k, c⟩ := e
    obtain ⟨member, isHead, left, right⟩ := set.node
    have small := set.within k member
    have low : ∀ x, x ∈ S ∩ Set.Iio k ↔ x ∈ (S ∪ Q) ∩ Set.Iio k := by
      intro x
      constructor
      · exact fun h => ⟨.inl h.1, h.2⟩
      · rintro ⟨first | second, less⟩
        · exact ⟨first, less⟩
        · exact absurd less (late k member x second).not_gt
    have high : ∀ x, x ∈ S ∩ Set.Ioi k ∪ Q ↔ x ∈ (S ∪ Q) ∩ Set.Ioi k := by
      intro x
      constructor
      · rintro (h | second)
        · exact ⟨.inl h.1, h.2⟩
        · exact ⟨.inr second, late k member x second⟩
      · rintro ⟨first | second, more⟩
        · exact .inl ⟨first, more⟩
        · exact .inr second
    cases rc with
    | null =>
      obtain ⟨chunk, noHead, within⟩ := isSet_leaf_iff.mp right
      have joined : IsSet ⟨Ordered.union c q, .null⟩ (S ∩ Set.Ioi k ∪ Q) := by
        refine isSet_leaf_iff.mpr ⟨chunk.union lists, ?_, ?_⟩
        · rintro x (first | second)
          · exact noHead x first
          · exact (plain x second).1
        · rintro x (first | second)
          · exact within x first
          · exact (plain x second).2
      rw [insertRightmost, Tree.last]
      simp only
      rw [Tree.insert, if_neg (lt_irrefl _), if_neg (lt_irrefl _)]
      exact IsSet.nodeJoin (left.congr low) (joined.congr high) (.inl member) isHead small
    | node rl re rr rs ra =>
      have rest := ihr right (by rintro ⟨⟩) fun x there => late x there.1
      cases found : (Tree.node rl re rr rs ra).last with
      | none =>
        rw [Tree.last_eq, List.getLast?_eq_none_iff] at found
        simp [Tree.entries] at found
      | some e =>
        have inside : e ∈ (Tree.node rl re rr rs ra).entries := by
          rw [Tree.last_eq] at found
          exact List.mem_of_getLast? found
        have more : k < e.1 := (right.key_mem inside).2
        have down : (Tree.node lc (k, c) (Tree.node rl re rr rs ra) s aug).last = some e := found
        rw [insertRightmost, found] at rest
        rw [insertRightmost, down]
        simp only at rest ⊢
        rw [Tree.insert, if_pos more]
        exact IsSet.nodeJoin (left.congr low) (rest.congr high) (.inl member) isHead small

theorem IsSet.eq_empty {t : TreePlus} (set : IsSet t S) (empty : t.empty = true) : S = ∅ := by
  obtain ⟨plus, root⟩ := t
  rw [TreePlus.empty, Bool.and_eq_true, beq_iff_eq, beq_iff_eq] at empty
  obtain ⟨rfl, rfl⟩ := empty
  exact set.lists_elements.eq_nil_iff.mp rfl

theorem leading_union_diff (T : Set Nat) : leading IsHead T ∪ T \ leading IsHead T = T :=
  Set.union_sdiff_cancel fun _ leads => leads.1

/-- `join2`: two sets one after the other, around a key. -/
theorem isSet_join2 {b1 b2 : TreePlus} (left : IsSet b1 S) (right : IsSet b2 T)
    (low : ∀ x ∈ S, x < k) (high : ∀ y ∈ T, k < y) : IsSet (join2 b1 b2) (S ∪ T) := by
  have order : ∀ x ∈ S, ∀ y ∈ T, x < y := fun x first y second => (low x first).trans (high y second)
  have lists := right.plus_lists
  have plain : ∀ y ∈ leading IsHead T, ¬IsHead y ∧ y < uintVMax := fun y leads =>
    ⟨not_head_of_leading leads, right.within y leads.1⟩
  rw [join2]
  split
  next empty =>
    rw [left.eq_empty empty, Set.empty_union]
    exact right
  next some1 =>
    split
    next empty =>
      rw [right.eq_empty empty, Set.union_empty]
      exact left
    next some2 =>
      obtain ⟨plus1, root1⟩ := b1
      obtain ⟨plus2, root2⟩ := b2
      cases root1 with
      | null =>
        -- the first is a list, which is not empty
        have some : plus1 ≠ [] := fun none => some1 (by rw [none]; rfl)
        obtain ⟨list1, noHead, within⟩ := isSet_leaf_iff.mp left
        rw [if_pos (by simp [hasPlus, hasTree, some])]
        refine (right.setPlus (list1.union lists) ?_).congr fun x => ?_
        · rintro x (first | second)
          · exact ⟨noHead x first, within x first, fun y there _ => order x first y there⟩
          · exact ⟨(plain x second).1, (plain x second).2, second.2⟩
        · rw [Set.union_assoc, leading_union_diff]
      | node lc e rc s aug =>
        rw [if_neg (by simp [hasTree])]
        have added := isSet_insertRightmost left (by rintro ⟨⟩) lists
          (fun x first y second => order x first y second.1) plain
        cases root2 with
        | null =>
          obtain ⟨-, noHead, -⟩ := isSet_leaf_iff.mp right
          rw [leading_eq_self noHead] at added
          have some : plus2 ≠ [] := fun none => some2 (by rw [none]; rfl)
          rw [if_pos (by simp [hasPlus, hasTree, some])]
          exact added
        | node lc2 e2 rc2 s2 aug2 =>
          rw [if_neg (by simp [hasTree])]
          have base : IsSet ⟨plus1, if hasPlus ⟨plus2, .node lc2 e2 rc2 s2 aug2⟩ then
              insertRightmost (.node lc e rc s aug) plus2 else .node lc e rc s aug⟩
              (S ∪ leading IsHead T) := by
            split
            next => exact added
            next none =>
              have nil : plus2 = [] := by simpa [hasPlus] using none
              rw [lists.eq_nil_iff.mp nil, Set.union_empty]
              exact left
          have joined := base.join (k := k) right.dropPlus ?_ ?_ ?_
          · rw [Set.union_assoc, leading_union_diff] at joined
            exact joined
          · rintro x (first | leads) y late
            · exact order x first y late.1
            · obtain ⟨z, there, isHead, before⟩ := exists_head_le late.1 late.2
              exact (leads.2 z there isHead).trans_le before
          · rintro x (first | leads) isHead
            · exact low x first
            · exact absurd isHead (not_head_of_leading leads)
          · exact fun y late _ => high y late.1

/-- A cut leaves no chunk longer than it was. -/
theorem IsSet.split_fits {t : TreePlus} (set : IsSet t S) (fits : t.Fits) (key : Nat) :
    (t.split key).first.Fits ∧ (t.split key).second.Fits := by
  obtain ⟨low, high, -⟩ := set.split key
  obtain ⟨lower, upper, -⟩ := set.split_elements key
  have whole := set.lists_elements
  have runs := set.fits_iff.mp fits
  rw [low.fits_iff, high.fits_iff, lower, upper]
  exact ⟨runs.of_infix (prefix_filter_lt whole.ascending key).isInfix,
    runs.of_infix (suffix_filter_gt whole.ascending key).isInfix⟩

/-- A cut loses no neighbour but the key. -/
theorem IsSet.split_degree {t : TreePlus} (set : IsSet t S) (key : Nat) :
    (t.split key).first.degree + (t.split key).second.degree + (t.split key).removed.toNat =
      t.degree := by
  obtain ⟨low, high, -⟩ := set.split key
  obtain ⟨lower, upper, removed⟩ := set.split_elements key
  have parts := congrArg List.length (eq_below_append_above set.lists_elements.ascending key)
  rw [List.length_append, List.length_append] at parts
  rw [low.degree_eq, high.degree_eq, set.degree_eq, lower, upper, removed, parts]
  by_cases member : key ∈ t.elements
  · rw [if_pos member, List.contains_iff_mem.mpr member, List.length_singleton, Bool.toNat_true]
    omega
  · rw [if_neg member, Bool.eq_false_iff.mpr (mt List.contains_iff_mem.mp member), Bool.toNat_false,
      List.length_nil]
    omega

/-- A tree that is split at a key and joined again has lost the key. -/
theorem IsSet.join2_split {t : TreePlus} (set : IsSet t S) (key : Nat) :
    IsSet ((t.split key).first.join2 (t.split key).second) (S \ {key}) ∧
      ((t.split key).first.join2 (t.split key).second).elements =
        t.elements.filter (· ≠ key) := by
  obtain ⟨low, high, -⟩ := set.split key
  have joined := (isSet_join2 (k := key) low high (fun x member => member.2)
    fun y member => member.2).congr (T := S \ {key}) fun x => by
      rw [Set.mem_union, Set.mem_sdiff, Set.mem_singleton_iff, ← ne_eq, ne_iff_lt_or_gt]
      exact and_or_left.symm
  refine ⟨joined, joined.lists_elements.unique ((set.lists_elements.filter _).congr fun x => ?_)⟩
  rw [Set.mem_ofPred_eq, decide_eq_true_eq]
  rfl

/-- When the runs that are left fit in the nodes, the parts of a split and what they
are joined to fit as well. -/
theorem join2_split_erases {t : TreePlus} (set : IsSet t S) (fits : t.Fits) (key : Nat)
    (short : RunsBelow IsHead (2 ^ 16) (t.elements.filter (· ≠ key))) :
    (t.split key).first.Fits ∧ (t.split key).second.Fits ∧
      IsSet ((t.split key).first.join2 (t.split key).second) (S \ {key}) ∧
      ((t.split key).first.join2 (t.split key).second).Fits ∧
      ((t.split key).first.join2 (t.split key).second).elements =
        t.elements.filter (· ≠ key) := by
  obtain ⟨first, second⟩ := set.split_fits fits key
  obtain ⟨joined, same⟩ := set.join2_split key
  exact ⟨first, second, joined, joined.fits_iff.mpr (same.symm ▸ short), same⟩

/-- The key `1724` is a head, and what follows it goes to the chunk of `300`. -/
theorem join2_split_erases_two :
    let t := ofSequence [5, 300, 301, 1724, 1725, 1961]
    (t.split 1724).first.Fits ∧ (t.split 1724).second.Fits ∧
      IsSet ((t.split 1724).first.join2 (t.split 1724).second)
        ({x | x ∈ [5, 300, 301, 1724, 1725, 1961]} \ {1724}) ∧
      ((t.split 1724).first.join2 (t.split 1724).second).Fits ∧
      ((t.split 1724).first.join2 (t.split 1724).second).elements = t.elements.filter (· ≠ 1724) :=
  join2_split_erases (isSet_ofSequence (by decide) (by decide))
    ((isSet_ofSequence (by decide) (by decide)).fits_iff.mpr
      (runsBelow_of_length (by decide +kernel))) 1724 (runsBelow_of_length (by decide +kernel))

end Joins

end Zeppelin.Aspen.TreePlus
