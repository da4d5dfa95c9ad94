import Zeppelin.Aspen.TreePlusGroups

/-! Union and difference of edge trees. Both cut the first tree at the root of the
second and go on with the two sides; what is before the next head of either tree goes
to the chunk of the root. -/
namespace Zeppelin.Aspen.TreePlus

section Recursion

/-- An array that is cut at a head of the other side, if it reaches it. -/
def cutArr (arr : List Nat) (leftmost : Option Nat) : Option (List Nat × List Nat) :=
  leftmost.bind fun leftmost =>
    if arr ≠ [] ∧ leftmost ≤ getLastKey arr then
      let (lt, gt, _) := splitList arr leftmost
      some (lt, gt)
    else .none

/-- The variables around the root's array in `union_rec` and `difference_rec`:
`new_entry.second`, `b2_rightplus`, `split_root_arr`, `b1_to_root_arr` and
`bsts.second.plus`. -/
structure Cut where
  entryArr : List Nat
  rightPlus : List Nat
  splitRootArr : Bool
  toRootArr : List Nat
  secondPlus : List Nat

def cut (rootArr : List Nat) (second : TreePlus) (rc : EdgeList) : Cut :=
  let root := cutArr rootArr (leftmostKey second.root)
  let plus := cutArr second.plus (leftmostKey rc)
  { entryArr := (root.map Prod.fst).getD []
    rightPlus := (root.map Prod.snd).getD []
    splitRootArr := root.isSome
    toRootArr := (plus.map Prod.fst).getD second.plus
    secondPlus := match plus with
      | some (_, gt) => if gt ≠ [] then gt else second.plus
      | .none => [] }

/-- The root's new array in `union_rec`. -/
def Cut.unionArr (c : Cut) (rootArr : List Nat) : List Nat :=
  if c.toRootArr ≠ [] then
    if c.entryArr ≠ [] then Ordered.union c.entryArr c.toRootArr
    else if !c.splitRootArr ∧ rootArr ≠ [] then Ordered.union rootArr c.toRootArr
    else c.toRootArr
  else if !c.splitRootArr then rootArr
  else c.entryArr

/-- The root's new array in `difference_rec`. -/
def Cut.differenceArr (c : Cut) (rootArr : List Nat) : List Nat :=
  if c.toRootArr ≠ [] then
    if c.entryArr ≠ [] then Ordered.difference c.toRootArr c.entryArr
    else if !c.splitRootArr ∧ rootArr ≠ [] then Ordered.difference c.toRootArr rootArr
    else []
  else if !c.splitRootArr then rootArr
  else c.entryArr

/-- `union_rec`, with the plus and the root of `b2`. -/
def unionRec (b1 : TreePlus) (plus : List Nat) : EdgeList → Option TreePlus
  | .null =>
    if b1.empty then some ⟨plus, .null⟩
    else if plus = [] then some b1
    else if b1.hasPlus && !b1.hasTree then unionBc b1.plus ⟨plus, .null⟩
    else unionBc plus b1
  | root@(.node lc (splitKey, rootArr) rc _ _) =>
    if b1.empty then some ⟨plus, root⟩
    else if b1.hasPlus && !b1.hasTree then unionBc b1.plus ⟨plus, root⟩
    else
      let bsts := b1.split splitKey
      let c := cut rootArr bsts.second rc
      if bsts.first.degree + bsts.second.degree + bsts.removed.toNat ≠ b1.degree then .none
      else
        (unionRec bsts.first plus lc).bind fun first =>
          (unionRec ⟨c.secondPlus, bsts.second.root⟩ c.rightPlus rc).bind fun second =>
            if second.plus ≠ [] then .none
            else some ⟨first.plus, first.root.nodeJoin second.root (splitKey, c.unionArr rootArr)⟩

/-- `uniont`. -/
def uniont (b1 b2 : TreePlus) : Option TreePlus := unionRec b1 b2.plus b2.root

/-- `difference_rec`, with the plus and the root of `b2`: what is in `b2` and not
in `b1`. -/
def differenceRec (b1 : TreePlus) (plus : List Nat) : EdgeList → Option TreePlus
  | .null =>
    if b1.empty then some ⟨plus, .null⟩
    else if plus = [] then some none
    else if b1.hasPlus && !b1.hasTree then differenceBc1 b1.plus ⟨plus, .null⟩
    else some (differenceBc2 b1 ⟨plus, .null⟩)
  | root@(.node lc (splitKey, rootArr) rc _ _) =>
    if b1.empty then some ⟨plus, root⟩
    else if b1.hasPlus && !b1.hasTree then differenceBc1 b1.plus ⟨plus, root⟩
    else
      let bsts := b1.split splitKey
      let c := cut rootArr bsts.second rc
      if bsts.first.degree + bsts.second.degree + bsts.removed.toNat ≠ b1.degree then .none
      else
        (differenceRec bsts.first plus lc).bind fun first =>
          (differenceRec ⟨c.secondPlus, bsts.second.root⟩ c.rightPlus rc).map fun second =>
            let newArr := Ordered.union (c.differenceArr rootArr) second.plus
            if bsts.removed then join2 first ⟨newArr, second.root⟩
            else ⟨first.plus, first.root.nodeJoin second.root (splitKey, newArr)⟩

/-- `difference`. -/
def difference (b1 b2 : TreePlus) : Option TreePlus := differenceRec b1 b2.plus b2.root

end Recursion

open Ordered

section Cuts

variable {A B U : Set Nat} {p arr : List Nat} {root other : EdgeList}

/-- What is before the heads of both sides, in the list of one of them. -/
theorem cutArr_cases (own : IsSet ⟨arr, root⟩ A) (opposite : IsSet ⟨p, other⟩ B)
    (whole : ∀ x, x ∈ U ↔ x ∈ A ∨ x ∈ B) :
    cutArr arr (leftmostKey other) = .none ∧ Lists arr (A ∩ leading IsHead U) ∧
        leading IsHead A ⊆ leading IsHead U ∨
      ∃ lt gt, cutArr arr (leftmostKey other) = some (lt, gt) ∧ Lists lt (A ∩ leading IsHead U) ∧
        Lists gt (leading IsHead A \ leading IsHead U) ∧ gt ≠ [] := by
  have lists : Lists arr (leading IsHead A) := own.plus_lists
  have inside : A ∩ leading IsHead U ⊆ leading IsHead A := fun x both =>
    ⟨both.1, fun y there => both.2.2 y ((whole y).mpr (.inl there))⟩
  have leads : ∀ x ∈ leading IsHead A, (∀ y ∈ B, IsHead y → x < y) → x ∈ leading IsHead U := by
    refine fun x first before => ⟨(whole x).mpr (.inl first.1), fun y there isHead => ?_⟩
    rcases (whole y).mp there with mine | theirs
    · exact first.2 y mine isHead
    · exact before y theirs isHead
  have kept : (∀ x ∈ leading IsHead A, ∀ y ∈ B, IsHead y → x < y) →
      Lists arr (A ∩ leading IsHead U) ∧ leading IsHead A ⊆ leading IsHead U := fun before =>
    ⟨lists.congr fun x => ⟨fun first => ⟨first.1, leads x first (before x first)⟩, fun both =>
      inside both⟩, fun x first => leads x first (before x first)⟩
  cases leftmost : leftmostKey other with
  | none =>
    refine .inl ⟨rfl, kept fun x first y there isHead => ?_⟩
    exact absurd isHead (opposite.leftmostKey_eq_none leftmost y there)
  | some m =>
    obtain ⟨member, isHead, least⟩ := opposite.leftmostKey_eq_some leftmost
    rw [cutArr, Option.bind_some]
    by_cases reaches : arr ≠ [] ∧ m ≤ getLastKey arr
    · rw [if_pos reaches]
      have before : ∀ x ∈ leading IsHead A, x ∈ leading IsHead U ↔ x < m := fun x first =>
        ⟨fun both => both.2 m ((whole m).mpr (.inr member)) isHead, fun less =>
          leads x first fun y there isHead' => lt_of_lt_of_le less (least y there isHead')⟩
      have last := getLastKey_mem reaches.1
      have apart : ∀ x ∈ leading IsHead A, x ≠ m := fun x first same =>
        not_head_of_leading first (same ▸ isHead)
      refine .inr ⟨_, _, rfl, (lists.filter _).congr fun x => ?_, (lists.filter _).congr fun x => ?_,
        List.ne_nil_of_mem (List.mem_filter.mpr ⟨last, decide_eq_true ?_⟩)⟩
      · rw [Set.mem_ofPred_eq, decide_eq_true_eq]
        exact ⟨fun h => ⟨h.1.1, (before x h.1).mpr h.2⟩, fun h =>
          ⟨inside h, (before x (inside h)).mp h.2⟩⟩
      · rw [Set.mem_ofPred_eq, decide_eq_true_eq]
        refine ⟨fun h => ⟨h.1, fun both => ?_⟩, fun h => ⟨h.1, ?_⟩⟩
        · exact h.2.not_gt ((before x h.1).mp both)
        · have late := mt (before x h.1).mpr h.2
          exact lt_of_le_of_ne (not_lt.mp late) (apart x h.1).symm
      · exact lt_of_le_of_ne reaches.2 (apart _ ((lists.mem_iff _).mp last)).symm
    · rw [if_neg reaches]
      refine .inl ⟨rfl, kept fun x first y there isHead' => ?_⟩
      have here := (lists.mem_iff x).mpr first
      have past : getLastKey arr < m :=
        not_le.mp fun order => reaches ⟨List.ne_nil_of_mem here, order⟩
      exact ((le_getLastKey lists here).trans_lt past).trans_le (least y there isHead')

/-- The rest of a list that is cut goes on as the plus of its tree. -/
theorem IsSet.cutPlus {L : Set Nat} {q : List Nat} (own : IsSet ⟨arr, root⟩ A)
    (lists : Lists q (leading IsHead A \ L)) (inside : A ∩ L ⊆ leading IsHead A) :
    IsSet ⟨q, root⟩ (A \ L) := by
  refine (own.setPlus lists fun x rest => ?_).congr fun x => ?_
  · exact ⟨not_head_of_leading rest.1, own.within x rest.1.1, rest.1.2⟩
  · constructor
    · rintro (⟨first, other⟩ | ⟨member, late⟩)
      · exact ⟨first.1, other⟩
      · exact ⟨member, fun both => late (inside ⟨member, both⟩)⟩
    · rintro ⟨member, other⟩
      by_cases first : x ∈ leading IsHead A
      · exact .inl ⟨first, other⟩
      · exact .inr ⟨member, first⟩

theorem inter_leading_subset (within : A ⊆ U) : A ∩ leading IsHead U ⊆ leading IsHead A :=
  fun _ both => ⟨both.1, fun y there => both.2.2 y (within there)⟩

theorem Cut.unionArr_eq {c : Cut} (none : c.splitRootArr = false → c.entryArr = []) :
    c.unionArr arr =
      Ordered.union (if c.splitRootArr then c.entryArr else arr) c.toRootArr := by
  rw [Cut.unionArr]
  cases split : c.splitRootArr with
  | true =>
    by_cases right : c.toRootArr = []
    · simp [right, Ordered.union_nil_right]
    · by_cases left : c.entryArr = []
      · simp [right, left, Ordered.union]
      · simp [right, left]
  | false =>
    by_cases right : c.toRootArr = []
    · simp [right, Ordered.union_nil_right]
    · by_cases left : arr = []
      · simp [right, left, none split, Ordered.union]
      · simp [right, left, none split]

theorem Cut.differenceArr_eq {c : Cut} (none : c.splitRootArr = false → c.entryArr = []) :
    c.differenceArr arr =
      Ordered.difference c.toRootArr (if c.splitRootArr then c.entryArr else arr) := by
  rw [Cut.differenceArr]
  cases split : c.splitRootArr with
  | true =>
    by_cases right : c.toRootArr = []
    · simp [right, Ordered.difference]
    · by_cases left : c.entryArr = []
      · simp [right, left, Ordered.difference_nil_right]
      · simp [right, left]
  | false =>
    by_cases right : c.toRootArr = []
    · simp [right, Ordered.difference]
    · by_cases left : arr = []
      · simp [right, left, none split, Ordered.difference_nil_right]
      · simp [right, left, none split]

/-- What a cut around the root makes of both sides: what is before all heads meets at
the root, and the rest of both lists goes to the right. -/
structure IsCut (c : Cut) (arr : List Nat) (root other : EdgeList) (A B U : Set Nat) : Prop where
  kept : Lists (if c.splitRootArr then c.entryArr else arr) (A ∩ leading IsHead U)
  uncut : c.splitRootArr = false → c.entryArr = []
  toRoot : Lists c.toRootArr (B ∩ leading IsHead U)
  right : IsSet ⟨c.rightPlus, root⟩ (A \ leading IsHead U)
  second : IsSet ⟨c.secondPlus, other⟩ (B \ leading IsHead U)

theorem isCut_cut {b : TreePlus} (own : IsSet ⟨arr, root⟩ A) (second : IsSet b B)
    (whole : ∀ x, x ∈ U ↔ x ∈ A ∨ x ∈ B) : IsCut (cut arr b root) arr root b.root A B U := by
  obtain ⟨p, other⟩ := b
  have insideA := inter_leading_subset fun x (member : x ∈ A) => (whole x).mpr (.inl member)
  have insideB := inter_leading_subset fun x (member : x ∈ B) => (whole x).mpr (.inr member)
  have swapped : ∀ x, x ∈ U ↔ x ∈ B ∨ x ∈ A := fun x => (whole x).trans or_comm
  have left : Lists (if (cut arr ⟨p, other⟩ root).splitRootArr then
        (cut arr ⟨p, other⟩ root).entryArr else arr) (A ∩ leading IsHead U) ∧
      ((cut arr ⟨p, other⟩ root).splitRootArr = false → (cut arr ⟨p, other⟩ root).entryArr = []) ∧
      Lists (cut arr ⟨p, other⟩ root).rightPlus (leading IsHead A \ leading IsHead U) := by
    rcases cutArr_cases own second whole with ⟨none, kept, all⟩ | ⟨lt, gt, some, low, high, -⟩
    · simp only [cut, none]
      exact ⟨kept, fun _ => rfl, Lists.nil.congr fun x => by rw [Set.sdiff_eq_empty.mpr all]⟩
    · simp only [cut, some]
      exact ⟨low, nofun, high⟩
  have right : Lists (cut arr ⟨p, other⟩ root).toRootArr (B ∩ leading IsHead U) ∧
      Lists (cut arr ⟨p, other⟩ root).secondPlus (leading IsHead B \ leading IsHead U) := by
    rcases cutArr_cases second own swapped with ⟨none, kept, all⟩ | ⟨lt, gt, some, low, high, rest⟩
    · simp only [cut, none]
      exact ⟨kept, Lists.nil.congr fun x => by rw [Set.sdiff_eq_empty.mpr all]⟩
    · simp only [cut, some, if_pos rest]
      exact ⟨low, high⟩
  obtain ⟨keptA, uncut, restA⟩ := left
  obtain ⟨keptB, restB⟩ := right
  exact ⟨keptA, uncut, keptB, own.cutPlus restA insideA, second.cutPlus restB insideB⟩

end Cuts

section Unions

variable {S T : Set Nat} {plus : List Nat} {root : EdgeList}

theorem eq_list {b : TreePlus} (list : (b.hasPlus && !b.hasTree) = true) : b = ⟨b.plus, .null⟩ := by
  obtain ⟨plus, root⟩ := b
  cases root with
  | null => rfl
  | node lc e rc s aug => simp [hasTree] at list

/-- The union of the parts around the root of the second side. -/
theorem isSet_unionRec {b1 : TreePlus} (first : IsSet b1 S) (second : IsSet ⟨plus, root⟩ T) :
    ∃ r, unionRec b1 plus root = some r ∧ IsSet r (S ∪ T) := by
  induction root generalizing b1 plus S T with
  | null =>
    rw [unionRec]
    by_cases empty : b1.empty = true
    · rw [if_pos empty, first.eq_empty empty, Set.empty_union]
      exact ⟨_, rfl, second⟩
    rw [if_neg empty]
    by_cases none : plus = []
    · subst none
      rw [if_pos rfl, second.eq_empty rfl, Set.union_empty]
      exact ⟨_, rfl, first⟩
    rw [if_neg none]
    by_cases list : (b1.hasPlus && !b1.hasTree) = true
    · rw [if_pos list]
      rw [eq_list list] at first
      exact isSet_unionBc first second (by simp [TreePlus.empty, none])
    · rw [if_neg list, Set.union_comm]
      exact isSet_unionBc second first (Bool.eq_false_iff.mpr empty)
  | node lc e rc s aug ihl ihr =>
    obtain ⟨k, c⟩ := e
    rw [unionRec]
    by_cases empty : b1.empty = true
    · rw [if_pos empty, first.eq_empty empty, Set.empty_union]
      exact ⟨_, rfl, second⟩
    rw [if_neg empty]
    by_cases list : (b1.hasPlus && !b1.hasTree) = true
    · rw [if_pos list]
      rw [eq_list list] at first
      exact isSet_unionBc first second (by simp [TreePlus.empty])
    rw [if_neg list]
    obtain ⟨member, isHead, left, right⟩ := second.node
    obtain ⟨low, high, -⟩ := first.split k
    have above : ∀ x, x ∈ (S ∪ T) ∩ Set.Ioi k ↔ x ∈ T ∩ Set.Ioi k ∨ x ∈ S ∩ Set.Ioi k := by
      intro x
      rw [Set.union_inter_distrib_right, Set.union_comm]
      exact Iff.rfl
    have parts := isCut_cut right high above
    obtain ⟨r1, run1, set1⟩ := ihl low left
    obtain ⟨r2, run2, set2⟩ := ihr parts.second parts.right
    have upper : IsSet r2 (((S ∪ T) ∩ Set.Ioi k) \ leading IsHead ((S ∪ T) ∩ Set.Ioi k)) :=
      set2.congr fun x => by
        rw [← Set.union_sdiff_distrib, Set.mem_sdiff, Set.mem_sdiff, above, Set.mem_union, or_comm]
    -- nothing of the right side is before its first head
    have none : r2.plus = [] := upper.plus_lists.eq_nil_iff.mpr leading_sdiff_leading
    obtain ⟨q, root2⟩ := r2
    obtain rfl : q = [] := none
    have chunk : Lists ((cut c (b1.split k).second rc).unionArr c)
        (leading IsHead ((S ∪ T) ∩ Set.Ioi k)) := by
      rw [Cut.unionArr_eq parts.uncut]
      refine (parts.kept.union parts.toRoot).congr fun x => ?_
      rw [← Set.union_inter_distrib_right]
      exact ⟨And.right, fun leads => ⟨(above x).mp leads.1, leads⟩⟩
    have joined := upper.addPlus chunk fun x leads => ⟨not_head_of_leading leads,
      leads.1.1.elim (first.within x) (second.within x), fun y there => leads.2 y there.1⟩
    refine ⟨_, (if_neg (not_not.mpr (first.split_degree k))).trans ?_, IsSet.nodeJoin (S := S ∪ T)
      (set1.congr fun x => ?_) (joined.congr fun x => ?_) (.inr member) isHead
      (second.within k member)⟩
    · rw [run1, Option.bind_some, run2]
      rfl
    · rw [Set.union_inter_distrib_right]
    · rw [leading_union_diff]

/-- The union of two edge trees is visited as their merged lists. The lists that are
cut on the way are parts of chunks, and when the runs that are left fit in the
nodes, the chunks of the union fit as well. -/
theorem uniont_merges {b1 b2 : TreePlus} (first : IsSet b1 S) (second : IsSet b2 T)
    (short : RunsBelow IsHead (2 ^ 16) (Ordered.union b1.elements b2.elements)) :
    ∃ r, uniont b1 b2 = some r ∧ IsSet r (S ∪ T) ∧ r.Fits ∧
      r.elements = Ordered.union b1.elements b2.elements := by
  obtain ⟨r, run, set⟩ := isSet_unionRec first second
  have same : r.elements = Ordered.union b1.elements b2.elements :=
    set.lists_elements.unique (first.lists_elements.union second.lists_elements)
  exact ⟨r, run, set, set.fits_iff.mpr (same.symm ▸ short), same⟩

/-- The neighbour `302` joins the chunk of the head `300`. -/
example : (uniont (ofSequence [5, 300, 301]) (ofSequence [7, 302, 1724])).map elements =
    some [5, 7, 300, 301, 302, 1724] := by decide +kernel

end Unions

section Differences

variable {S T : Set Nat} {plus : List Nat} {root : EdgeList}

/-- The difference of the parts around the root of the second side. -/
theorem isSet_differenceRec {b1 : TreePlus} (first : IsSet b1 S) (second : IsSet ⟨plus, root⟩ T)
    (subset : S ⊆ T) : ∃ r, differenceRec b1 plus root = some r ∧ IsSet r (T \ S) := by
  induction root generalizing b1 plus S T with
  | null =>
    rw [differenceRec]
    by_cases empty : b1.empty = true
    · rw [if_pos empty, first.eq_empty empty, Set.sdiff_empty]
      exact ⟨_, rfl, second⟩
    rw [if_neg empty]
    by_cases none : plus = []
    · subst none
      rw [if_pos rfl, second.eq_empty rfl, Set.empty_sdiff]
      exact ⟨_, rfl, isSet_none⟩
    rw [if_neg none]
    by_cases list : (b1.hasPlus && !b1.hasTree) = true
    · rw [if_pos list]
      rw [eq_list list] at first
      exact isSet_differenceBc1 first second (by simp [TreePlus.empty, none]) subset
    · rw [if_neg list]
      exact ⟨_, rfl, isSet_differenceBc2 first second⟩
  | node lc e rc s aug ihl ihr =>
    obtain ⟨k, c⟩ := e
    rw [differenceRec]
    by_cases empty : b1.empty = true
    · rw [if_pos empty, first.eq_empty empty, Set.sdiff_empty]
      exact ⟨_, rfl, second⟩
    rw [if_neg empty]
    by_cases list : (b1.hasPlus && !b1.hasTree) = true
    · rw [if_pos list]
      rw [eq_list list] at first
      exact isSet_differenceBc1 first second (by simp [TreePlus.empty]) subset
    rw [if_neg list]
    obtain ⟨member, isHead, left, right⟩ := second.node
    obtain ⟨low, high, removed⟩ := first.split k
    have inside : S ∩ Set.Ioi k ⊆ T ∩ Set.Ioi k := Set.inter_subset_inter_left _ subset
    have above : ∀ x, x ∈ T ∩ Set.Ioi k ↔ x ∈ T ∩ Set.Ioi k ∨ x ∈ S ∩ Set.Ioi k := fun x =>
      (or_iff_left_of_imp (@inside x)).symm
    have parts := isCut_cut right high above
    obtain ⟨r1, run1, set1⟩ := ihl low left (Set.inter_subset_inter_left _ subset)
    obtain ⟨r2, run2, set2⟩ := ihr parts.second parts.right (Set.sdiff_subset_sdiff_left inside)
    obtain ⟨q, root2⟩ := r2
    have lower : IsSet r1 ((T \ S) ∩ Set.Iio k) := set1.congr fun x => by
      rw [Set.inter_sdiff_distrib_right]
    have chunk := parts.toRoot.difference parts.kept
    rw [← Cut.differenceArr_eq parts.uncut] at chunk
    have joined := set2.onPlus pointwise_union chunk fun x first => ⟨not_head_of_leading first.1.2,
      second.within x first.1.1.1, fun y there => first.1.2.2 y there.1.1⟩
    have upper : IsSet ⟨Ordered.union ((cut c (b1.split k).second rc).differenceArr c) q, root2⟩
        ((T \ S) ∩ Set.Ioi k) := joined.congr fun x => by
      rw [Set.inter_sdiff_distrib_right]
      constructor
      · rintro (early | late)
        · exact ⟨early.1.1, fun gone => early.2 ⟨gone, early.1.2⟩⟩
        · exact ⟨late.1.1, fun gone => late.2 ⟨gone, late.1.2⟩⟩
      · rintro ⟨there, kept⟩
        by_cases leads : x ∈ leading IsHead (T ∩ Set.Ioi k)
        · exact .inl ⟨⟨there, leads⟩, fun gone => kept gone.1⟩
        · exact .inr ⟨⟨there, leads⟩, fun gone => kept gone.1⟩
    by_cases gone : (b1.split k).removed = true
    · -- the root is removed, and the parts are joined without it
      have whole := isSet_join2 (k := k) lower upper (fun x first => first.2) fun x later => later.2
      refine ⟨_, (if_neg (not_not.mpr (first.split_degree k))).trans ?_, whole.congr fun x => ?_⟩
      · rw [run1, Option.bind_some, run2, Option.map_some, if_pos gone]
      · rw [← Set.inter_union_distrib_left]
        refine ⟨And.left, fun rest => ⟨rest, ?_⟩⟩
        have other : x ≠ k := fun same => rest.2 (same ▸ removed.mp gone)
        exact lt_or_gt_of_ne other
    · refine ⟨_, (if_neg (not_not.mpr (first.split_degree k))).trans ?_,
        IsSet.nodeJoin lower upper ⟨member, mt removed.mpr gone⟩ isHead (second.within k member)⟩
      rw [run1, Option.bind_some, run2, Option.map_some, if_neg gone]

/-- The difference of two edge trees is what is left of the second, when the first is
a part of it. When the runs that are left fit in the nodes, the chunks fit as well. -/
theorem difference_removes {b1 b2 : TreePlus} (first : IsSet b1 S) (second : IsSet b2 T)
    (subset : S ⊆ T)
    (short : RunsBelow IsHead (2 ^ 16) (Ordered.difference b1.elements b2.elements)) :
    ∃ r, difference b1 b2 = some r ∧ IsSet r (T \ S) ∧ r.Fits ∧
      r.elements = Ordered.difference b1.elements b2.elements := by
  obtain ⟨r, run, set⟩ := isSet_differenceRec first second subset
  have same : r.elements = Ordered.difference b1.elements b2.elements :=
    set.lists_elements.unique (first.lists_elements.difference second.lists_elements)
  exact ⟨r, run, set, set.fits_iff.mpr (same.symm ▸ short), same⟩

/-- Where the first is not a part of the second, the iterator stays behind in the group of
a chunk that ends early, and `1725`, which is in both, is kept. -/
example : (difference (ofSequence [302, 303, 1725]) (ofSequence [300, 301, 1724, 1725])).map
    elements = some [300, 301, 1724, 1725] := by decide +kernel

end Differences

end Zeppelin.Aspen.TreePlus
