import Zeppelin.Aspen.TreePlus

/-! The sets that edge trees stand for. An edge tree holds a set when its plus and
its chunks are the segments of the set; since the heads are fixed by their hash,
this determines what is in each chunk, and a set is cut and put together without
looking at more than the chunks at the cut. -/
namespace Zeppelin.Aspen.TreePlus

open Ordered

/-- The heads as a predicate on neighbours. -/
def IsHead (x : Nat) : Prop := isHead x = true

/-- The tree holds the set, of identifiers below `UINT_V_MAX`. -/
structure IsSet (t : TreePlus) (S : Set Nat) : Prop where
  map : ∃ f, t.root.IsMap (Finset.range uintVMax) f ∧ Segmented IsHead S t.plus f
  within : ∀ x ∈ S, x < uintVMax

theorem room : (Finset.range uintVMax).card ≤ 2 ^ 32 := by
  rw [Finset.card_range]
  decide

variable {S T Q : Set Nat} {plus q c : List Nat} {root lc rc : EdgeList} {k key : Nat}

theorem IsSet.congr {t : TreePlus} (set : IsSet t S) (same : ∀ x, x ∈ S ↔ x ∈ T) : IsSet t T := by
  obtain rfl : S = T := Set.ext same
  exact set

theorem IsSet.plus_lists {t : TreePlus} (set : IsSet t S) : Lists t.plus (leading IsHead S) := by
  obtain ⟨f, -, segmented⟩ := set.map
  exact segmented.plus

theorem isSet_none : IsSet none ∅ :=
  ⟨⟨_, Tree.isMap_null, Segmented.leaf_iff.mpr ⟨Lists.nil, nofun⟩⟩, nofun⟩

/-- A tree without heads is a list. -/
theorem isSet_leaf_iff : IsSet ⟨plus, .null⟩ S ↔
    Lists plus S ∧ (∀ x ∈ S, ¬IsHead x) ∧ ∀ x ∈ S, x < uintVMax := by
  constructor
  · rintro ⟨⟨f, map, segmented⟩, within⟩
    obtain rfl := map.eq_none
    obtain ⟨lists, none⟩ := Segmented.leaf_iff.mp segmented
    exact ⟨lists, none, within⟩
  · rintro ⟨lists, none, within⟩
    exact ⟨⟨_, Tree.isMap_null, Segmented.leaf_iff.mpr ⟨lists, none⟩⟩, within⟩

/-- On both sides of a head. -/
theorem IsSet.node {s aug : Nat} (set : IsSet ⟨plus, .node lc (k, c) rc s aug⟩ S) :
    k ∈ S ∧ IsHead k ∧ IsSet ⟨plus, lc⟩ (S ∩ Set.Iio k) ∧ IsSet ⟨c, rc⟩ (S ∩ Set.Ioi k) := by
  obtain ⟨⟨f, map, segmented⟩, within⟩ := set
  obtain ⟨left, here, right⟩ := map.node
  obtain ⟨member, isHead, low, high⟩ := (Segmented.node_iff here).mp segmented
  exact ⟨member, isHead, ⟨⟨_, left, low⟩, fun x there => within x there.1⟩,
    ⟨⟨_, right, high⟩, fun x there => within x there.1⟩⟩

theorem segmented_below {f : Nat → Option (List Nat)} (segmented : Segmented IsHead (S ∩ Set.Iio k) plus f) :
    below k f = f :=
  below_eq_self fun x v value => ((segmented.keys x).mp ⟨v, value⟩).1.2

theorem segmented_above {f : Nat → Option (List Nat)} (segmented : Segmented IsHead (S ∩ Set.Ioi k) plus f) :
    above k f = f :=
  above_eq_self fun x v value => ((segmented.keys x).mp ⟨v, value⟩).1.2

theorem IsSet.nodeJoin (left : IsSet ⟨plus, lc⟩ (S ∩ Set.Iio k)) (right : IsSet ⟨c, rc⟩ (S ∩ Set.Ioi k))
    (member : k ∈ S) (isHead : IsHead k) (small : k < uintVMax) :
    IsSet ⟨plus, lc.nodeJoin rc (k, c)⟩ S := by
  obtain ⟨⟨f, mapL, low⟩, withinL⟩ := left
  obtain ⟨⟨g, mapR, high⟩, withinR⟩ := right
  have lower : below k (paste k f (some c) g) = f := below_paste.trans (segmented_below low)
  have upper : above k (paste k f (some c) g) = g := above_paste.trans (segmented_above high)
  have here : paste k f (some c) g k = some c := paste_self
  have segmented : Segmented IsHead S plus (paste k f (some c) g) := by
    rw [Segmented.node_iff here, lower, upper]
    exact ⟨member, isHead, low, high⟩
  have within : ∀ x ∈ S, x < uintVMax := by
    intro x there
    rcases lt_trichotomy x k with less | rfl | more
    · exact withinL x ⟨there, less⟩
    · exact small
    · exact withinR x ⟨there, more⟩
  refine ⟨⟨_, Tree.IsMap.nodeJoin (e := (k, c)) (f := paste k f (some c) g) room ?_ ?_ here ?_,
    segmented⟩, within⟩
  · rw [lower]
    exact mapL
  · rw [upper]
    exact mapR
  · intro x v value
    exact Finset.mem_range.mpr (within x ((segmented.keys x).mp ⟨v, value⟩).1)

/-- Two sets one after the other, of which the second starts with a head. -/
theorem IsSet.join (left : IsSet ⟨plus, lc⟩ S) (right : IsSet ⟨[], rc⟩ T)
    (order : ∀ x ∈ S, ∀ y ∈ T, x < y) (low : ∀ x ∈ S, IsHead x → x < k)
    (high : ∀ y ∈ T, IsHead y → k < y) : IsSet ⟨plus, lc.join2 rc⟩ (S ∪ T) := by
  obtain ⟨⟨f, mapL, segL⟩, withinL⟩ := left
  obtain ⟨⟨g, mapR, segR⟩, withinR⟩ := right
  have belowL : ∀ x v, f x = some v → x < k := fun x v value =>
    low x ((segL.keys x).mp ⟨v, value⟩).1 ((segL.keys x).mp ⟨v, value⟩).2
  have aboveR : ∀ x v, g x = some v → k < x := fun x v value =>
    high x ((segR.keys x).mp ⟨v, value⟩).1 ((segR.keys x).mp ⟨v, value⟩).2
  have lower : below k (paste k f .none g) = f := below_paste.trans (below_eq_self belowL)
  have upper : above k (paste k f .none g) = g := above_paste.trans (above_eq_self aboveR)
  have either : ∀ j c, paste k f .none g j = some c ↔ f j = some c ∨ g j = some c := by
    intro j c
    have left := belowL j c
    have right := aboveR j c
    rw [paste]
    split
    next less => exact ⟨.inl, fun h => h.resolve_right fun h => not_lt_of_gt less (right h)⟩
    next notLess =>
      split
      next => exact ⟨.inr, fun h => h.resolve_left fun h => notLess (left h)⟩
      next notMore =>
        constructor
        · intro h
          cases h
        · intro h
          rcases h with first | second
          · exact absurd (left first) notLess
          · exact absurd (right second) notMore
  have segmented := segL.append segR order either
  have within : ∀ x ∈ S ∪ T, x < uintVMax := by
    rintro x (first | second)
    · exact withinL x first
    · exact withinR x second
  refine ⟨⟨_, Tree.IsMap.join2 (k := k) (f := paste k f .none g) room ?_ ?_ paste_self ?_,
    segmented⟩, within⟩
  · rw [lower]
    exact mapL
  · rw [upper]
    exact mapR
  · intro x v value
    exact Finset.mem_range.mpr (within x ((segmented.keys x).mp ⟨v, value⟩).1)

/-- Other neighbours before the first head. -/
theorem IsSet.setPlus (set : IsSet ⟨plus, root⟩ S) (lists : Lists q Q)
    (low : ∀ x ∈ Q, ¬IsHead x ∧ x < uintVMax ∧ ∀ y ∈ S, IsHead y → x < y) :
    IsSet ⟨q, root⟩ (Q ∪ S \ leading IsHead S) := by
  obtain ⟨⟨f, map, segmented⟩, within⟩ := set
  refine ⟨⟨f, map, segmented.setPlus lists fun x member => ⟨(low x member).1, (low x member).2.2⟩⟩, ?_⟩
  rintro x (early | late)
  · exact (low x early).2.1
  · exact within x late.1

theorem IsSet.dropPlus (set : IsSet ⟨plus, root⟩ S) : IsSet ⟨[], root⟩ (S \ leading IsHead S) :=
  (set.setPlus Lists.nil fun _ => nofun).congr fun x => by rw [Set.empty_union]

theorem IsSet.addPlus (set : IsSet ⟨[], root⟩ S) (lists : Lists q Q)
    (low : ∀ x ∈ Q, ¬IsHead x ∧ x < uintVMax ∧ ∀ y ∈ S, IsHead y → x < y) :
    IsSet ⟨q, root⟩ (Q ∪ S) := by
  have none : leading IsHead S = ∅ := set.plus_lists.eq_nil_iff.mp rfl
  refine (set.setPlus lists low).congr fun x => ?_
  rw [none, Set.sdiff_empty]

section Split

/-- A member that is not leading is at or after a head. -/
theorem exists_head_le {x : Nat} (member : x ∈ S) (other : x ∉ leading IsHead S) :
    ∃ y ∈ S, IsHead y ∧ y ≤ x := by
  by_contra none
  refine other ⟨member, fun y there isHead => ?_⟩
  by_contra late
  exact none ⟨y, there, isHead, not_lt.mp late⟩

/-- A key that does not exceed the plus cuts it and leaves the tree. -/
theorem IsSet.splitPlus (set : IsSet ⟨plus, root⟩ S) {z : Nat} (last : z ∈ plus) (order : key ≤ z) :
    IsSet ⟨plus.filter (· < key), .null⟩ (S ∩ Set.Iio key) ∧
      IsSet ⟨plus.filter (key < ·), root⟩ (S ∩ Set.Ioi key) ∧ (key ∈ plus ↔ key ∈ S) := by
  have lists := set.plus_lists
  have early : ∀ y ∈ S, IsHead y → key < y := fun y there isHead =>
    lt_of_le_of_lt order (((lists.mem_iff z).mp last).2 y there isHead)
  have leads : ∀ x ∈ S, x ≤ key → x ∈ leading IsHead S := fun x there less =>
    ⟨there, fun y other isHead => lt_of_le_of_lt less (early y other isHead)⟩
  refine ⟨?_, ?_, ?_⟩
  · refine isSet_leaf_iff.mpr ⟨(lists.filter _).congr fun x => ?_, ?_, ?_⟩
    · rw [Set.mem_ofPred_eq, decide_eq_true_eq]
      exact ⟨fun h => ⟨h.1.1, h.2⟩, fun h => ⟨leads x h.1 (le_of_lt h.2), h.2⟩⟩
    · exact fun x there => not_head_of_leading (leads x there.1 (le_of_lt there.2))
    · exact fun x there => set.within x there.1
  · refine (set.setPlus (lists.filter _) fun x member => ?_).congr fun x => ?_
    · exact ⟨not_head_of_leading member.1, set.within x member.1.1, member.1.2⟩
    · rw [Set.mem_union, Set.mem_ofPred_eq, decide_eq_true_eq]
      constructor
      · rintro (h | h)
        · exact ⟨h.1.1, h.2⟩
        · obtain ⟨y, there, isHead, order⟩ := exists_head_le h.1 h.2
          exact ⟨h.1, lt_of_lt_of_le (early y there isHead) order⟩
      · rintro ⟨there, more⟩
        by_cases first : x ∈ leading IsHead S
        · exact .inl ⟨first, more⟩
        · exact .inr ⟨there, first⟩
  · rw [lists.mem_iff]
    exact ⟨And.left, fun there => leads key there le_rfl⟩

/-- The plus stays on the first side. -/
theorem splitTree_first (key : Nat) (plus : List Nat) (root : EdgeList) :
    (splitTree key plus root).first = ⟨plus, (splitTree key plus root).first.root⟩ := by
  cases root with
  | null => rfl
  | node lc e rc s aug =>
    obtain ⟨k, arr⟩ := e
    rw [splitTree]
    split
    · split
      · rfl
      · rfl
    · split
      · rfl
      · rfl

theorem getLastKey_mem {l : List Nat} (some : l ≠ []) : getLastKey l ∈ l := by
  obtain ⟨z, last⟩ := Option.ne_none_iff_exists'.mp (List.getLast?_eq_none_iff.not.mpr some)
  rw [getLastKey, List.getLastD_eq_getLast?, last]
  exact List.mem_of_getLast? last

theorem le_getLastKey {l : List Nat} (lists : Lists l S) {x : Nat} (member : x ∈ l) :
    x ≤ getLastKey l := by
  have some := List.ne_nil_of_mem member
  obtain ⟨z, last⟩ := Option.ne_none_iff_exists'.mp (List.getLast?_eq_none_iff.not.mpr some)
  rw [getLastKey, List.getLastD_eq_getLast?, last]
  exact lists.le_getLast member last

/-- The range test of `split` on a chunk. -/
theorem IsSet.reaches_or_below (set : IsSet ⟨plus, root⟩ S) (key : Nat) :
    (getLastKey plus ≠ uintVMax ∧ key ≤ getLastKey plus → getLastKey plus ∈ plus) ∧
      (¬(getLastKey plus ≠ uintVMax ∧ key ≤ getLastKey plus) → ∀ x ∈ plus, x < key) := by
  have lists : Lists plus _ := set.plus_lists
  constructor
  · rintro ⟨some, -⟩
    refine getLastKey_mem fun empty => some ?_
    rw [empty]
    rfl
  · intro past x member
    have last := getLastKey_mem (List.ne_nil_of_mem member)
    have small := set.within _ ((lists.mem_iff _).mp last).1
    have order := le_getLastKey lists member
    by_contra reaches
    exact past ⟨by omega, by omega⟩

theorem isSet_splitTree (set : IsSet ⟨plus, root⟩ S) (before : ∀ x ∈ plus, x < key) :
    IsSet (splitTree key plus root).first (S ∩ Set.Iio key) ∧
      IsSet (splitTree key plus root).second (S ∩ Set.Ioi key) ∧
      ((splitTree key plus root).removed = true ↔ key ∈ S) := by
  induction root generalizing plus S with
  | null =>
    obtain ⟨lists, none, within⟩ := isSet_leaf_iff.mp set
    have less : ∀ x ∈ S, x < key := fun x member => before x ((lists.mem_iff x).mpr member)
    refine ⟨set.congr fun x => ?_, isSet_none.congr fun x => ?_, ⟨nofun, fun member => ?_⟩⟩
    · exact ⟨fun member => ⟨member, less x member⟩, And.left⟩
    · exact ⟨nofun, fun member => absurd (less x member.1) (not_lt_of_gt member.2)⟩
    · exact absurd (less key member) (lt_irrefl key)
  | node lc e rc s aug ihl ihr =>
    obtain ⟨k, arr⟩ := e
    obtain ⟨member, isHead, left, right⟩ := set.node
    have small := set.within k member
    have leads := set.plus_lists
    rw [splitTree]
    rcases lt_trichotomy k key with less | rfl | more
    · rw [if_pos less]
      have lower : ∀ x, x ∈ S ∩ Set.Iio key ∩ Set.Iio k ↔ x ∈ S ∩ Set.Iio k := fun x =>
        ⟨fun h => ⟨h.1.1, h.2⟩, fun h => ⟨⟨h.1, lt_trans h.2 less⟩, h.2⟩⟩
      obtain ⟨reaches, below⟩ := right.reaches_or_below key
      split
      next test =>
        -- the key is in the range of the chunk
        obtain ⟨low, high, found⟩ := right.splitPlus (reaches test) test.2
        refine ⟨IsSet.nodeJoin (left.congr fun x => (lower x).symm) (low.congr fun x => ?_)
          ⟨member, less⟩ isHead small, high.congr fun x => ?_, ?_⟩
        · exact ⟨fun h => ⟨⟨h.1.1, h.2⟩, h.1.2⟩, fun h => ⟨⟨h.1.1, h.2⟩, h.1.2⟩⟩
        · exact ⟨fun h => ⟨h.1.1, h.2⟩, fun h => ⟨⟨h.1, lt_trans less h.2⟩, h.2⟩⟩
        · rw [splitList, List.contains_iff_mem, found]
          exact ⟨And.left, fun there => ⟨there, less⟩⟩
      next test =>
        -- the chunk is before the key, and the rest of the right side is cut
        have before := below test
        have rest := right.plus_lists
        obtain ⟨low, high, found⟩ := ihr right.dropPlus nofun
        rw [splitTree_first] at low
        have added := low.addPlus rest fun x first => ⟨not_head_of_leading first,
          right.within x first.1, fun y there => first.2 y there.1.1⟩
        refine ⟨IsSet.nodeJoin (left.congr fun x => (lower x).symm) (added.congr fun x => ?_)
          ⟨member, less⟩ isHead small, high.congr fun x => ?_, found.trans ?_⟩
        · constructor
          · rintro (first | later)
            · exact ⟨⟨first.1.1, before x ((rest.mem_iff x).mpr first)⟩, first.1.2⟩
            · exact ⟨⟨later.1.1.1, later.2⟩, later.1.1.2⟩
          · rintro ⟨⟨there, below⟩, above⟩
            by_cases first : x ∈ leading IsHead (S ∩ Set.Ioi k)
            · exact .inl first
            · exact .inr ⟨⟨⟨there, above⟩, first⟩, below⟩
        · constructor
          · exact fun h => ⟨h.1.1.1, h.2⟩
          · intro h
            refine ⟨⟨⟨h.1, lt_trans less h.2⟩, fun first => ?_⟩, h.2⟩
            exact not_lt_of_gt h.2 (before x ((rest.mem_iff x).mpr first))
        · constructor
          · exact fun h => h.1.1
          · intro h
            refine ⟨⟨h, less⟩, fun first => ?_⟩
            exact lt_irrefl key (before key ((rest.mem_iff key).mpr first))
    · rw [if_neg (lt_irrefl _), if_neg (lt_irrefl _)]
      exact ⟨left, right, ⟨fun _ => member, fun _ => rfl⟩⟩
    · rw [if_neg (not_lt_of_gt more), if_pos more]
      have upper : ∀ x, x ∈ S ∩ Set.Ioi key ∩ Set.Ioi k ↔ x ∈ S ∩ Set.Ioi k := fun x =>
        ⟨fun h => ⟨h.1.1, h.2⟩, fun h => ⟨⟨h.1, lt_trans more h.2⟩, h.2⟩⟩
      have rest := left.plus_lists
      obtain ⟨low, high, found⟩ := ihl left.dropPlus nofun
      rw [splitTree_first] at low
      have added := low.addPlus rest fun x first => ⟨not_head_of_leading first,
        left.within x first.1, fun y there => first.2 y there.1.1⟩
      refine ⟨added.congr fun x => ?_, IsSet.nodeJoin (high.congr fun x => ?_)
        (right.congr fun x => (upper x).symm) ⟨member, more⟩ isHead small, found.trans ?_⟩
      · constructor
        · rintro (first | later)
          · exact ⟨first.1.1, before x ((rest.mem_iff x).mpr first)⟩
          · exact ⟨later.1.1.1, later.2⟩
        · rintro ⟨there, below⟩
          by_cases first : x ∈ leading IsHead (S ∩ Set.Iio k)
          · exact .inl first
          · exact .inr ⟨⟨⟨there, lt_trans below more⟩, first⟩, below⟩
      · constructor
        · exact fun h => ⟨⟨h.1.1.1, h.2⟩, h.1.1.2⟩
        · intro h
          refine ⟨⟨⟨h.1.1, h.2⟩, fun first => ?_⟩, h.1.2⟩
          exact not_lt_of_gt h.1.2 (before x ((rest.mem_iff x).mpr first))
      · constructor
        · exact fun h => h.1.1
        · intro h
          refine ⟨⟨h, more⟩, fun first => ?_⟩
          exact lt_irrefl key (before key ((rest.mem_iff key).mpr first))

/-- `split` cuts the set at any key. -/
theorem IsSet.split {t : TreePlus} (set : IsSet t S) (key : Nat) :
    IsSet (t.split key).first (S ∩ Set.Iio key) ∧ IsSet (t.split key).second (S ∩ Set.Ioi key) ∧
      ((t.split key).removed = true ↔ key ∈ S) := by
  obtain ⟨plus, root⟩ := t
  have lists := set.plus_lists
  rw [TreePlus.split]
  cases plus with
  | nil => exact isSet_splitTree set nofun
  | cons first rest =>
    have head : first ∈ first :: rest := List.mem_cons_self ..
    have last := getLastKey_mem (List.cons_ne_nil first rest)
    simp only
    split
    next inside =>
      obtain ⟨low, high, found⟩ := set.splitPlus last inside.2
      refine ⟨low, high, ?_⟩
      rw [splitList, List.contains_iff_mem, found]
    next outside =>
      split
      next early =>
        -- nothing is before the first of the plus
        have least : ∀ x ∈ S, first ≤ x := by
          intro x member
          by_cases leads : x ∈ leading IsHead S
          · exact lists.head_le ((lists.mem_iff x).mpr leads) rfl
          · obtain ⟨y, there, isHead, order⟩ := exists_head_le member leads
            exact (((lists.mem_iff first).mp head).2 y there isHead).le.trans order
        refine ⟨isSet_none.congr fun x => ?_, set.congr fun x => ?_, ⟨nofun, fun member => ?_⟩⟩
        · refine ⟨nofun, fun member => ?_⟩
          exact absurd (lt_trans member.2 early) (not_lt_of_ge (least x member.1))
        · exact ⟨fun member => ⟨member, lt_of_lt_of_le early (least x member)⟩, And.left⟩
        · exact absurd early (not_lt_of_ge (least key member))
      next late =>
        refine isSet_splitTree set fun x member => ?_
        have order := le_getLastKey lists member
        by_contra reaches
        exact outside ⟨not_lt.mp late, le_trans (not_lt.mp reaches) order⟩

end Split

end Zeppelin.Aspen.TreePlus
