import Zeppelin.Aspen.MapRuns
import Zeppelin.Aspen.TreePlusOps

/-! A list of neighbours that meets an edge tree: the base cases of union and of
difference. The list is cut at the first head of the tree; what is before it meets
the plus, and the rest is handed out in groups to the chunks of the heads before
them. Where an assertion fails, there is no result. -/
namespace Zeppelin.Aspen

/-- `leftmost_key`. -/
def leftmostKey (node : EdgeList) : Option Nat := node.first.map Prod.fst

namespace TreePlus

section Batches

/-- The variables of the loop over the neighbours that go into the tree. -/
structure Grouping where
  lastKey : Nat
  start : Nat
  it : List Nat
  kvs : List (Nat × List Nat)

variable (op : List Nat → List Nat → List Nat)
  (create : List Nat → Nat → List Nat → List Nat × List Nat)

/-- `create_new_key`: the chunk of one head with some of the neighbours that `it` reads. -/
def createNewKey (root : EdgeList) (key start stop : Nat) (s : Grouping) : Option Grouping :=
  (root.find key).map fun keyNode =>
    let (arr, it) := create s.it (stop - start) keyNode.2
    { s with it, kvs := s.kvs ++ [(key, arr)] }

/-- `map_f`, on the neighbour with its index. -/
def mapF (root : EdgeList) (size : Nat) (s : Grouping) (ngh : Nat × Nat) : Option Grouping := do
  let mp ← root.previous ngh.1
  let curKey := mp.1
  let s ←
    if curKey ≠ s.lastKey then
      (if s.lastKey ≠ uintVMax then createNewKey create root s.lastKey s.start ngh.2 s else some s).map
        fun s => { s with start := ngh.2, lastKey := curKey }
    else some s
  if ngh.2 = size - 1 then createNewKey create root curKey s.start size s else some s

/-- The neighbours for each head, and the tree with them. -/
def insertGroups (root : EdgeList) (toInsert : List Nat) : Option EdgeList :=
  (toInsert.zipIdx.foldlM (mapF create root toInsert.length) ⟨uintVMax, 0, toInsert, []⟩).map fun s =>
    root.multiInsertSorted (fun _ b => b) s.kvs

/-- `union_bc` and `difference_bc_1`, which differ in what is done with two lists. -/
def baseCase (b1Plus : List Nat) (b2 : TreePlus) : Option TreePlus :=
  if b2.hasPlus && !b2.hasTree then some ⟨op b1Plus b2.plus, .null⟩
  else
    (leftmostKey b2.root).bind fun leftmost =>
      if getLastKey b1Plus < leftmost then some ⟨op b1Plus b2.plus, b2.root⟩
      else
        let (splitPlus, toInsert, foundKey) := splitList b1Plus leftmost
        let newPlus := op splitPlus b2.plus
        if foundKey then .none
        else if toInsert ≠ [] then (insertGroups create b2.root toInsert).map (⟨newPlus, ·⟩)
        else some ⟨newPlus, b2.root⟩

end Batches

/-- `create_new_key` of `union_bc`: `union_it_and_node`, or `copy_from_it` for a head
without a chunk. -/
def unionFromIt (it : List Nat) (deg : Nat) (keyArr : List Nat) : List Nat × List Nat :=
  (Ordered.union (it.take deg) keyArr, it.drop deg)

/-- `create_new_key` of `difference_bc_1`: `difference_it_and_node`, or `deg` steps over
the iterator for a head without a chunk. The walk ends with the chunk, and the iterator
may then stand before the end of its group. -/
def differenceFromIt (it : List Nat) (deg : Nat) (keyArr : List Nat) : List Nat × List Nat :=
  if keyArr ≠ [] then
    (Ordered.difference (it.take deg) keyArr,
      (Ordered.leftover (it.take deg) keyArr).tail ++ it.drop deg)
  else ([], it.drop deg)

/-- `union_bc`. -/
def unionBc : List Nat → TreePlus → Option TreePlus := baseCase Ordered.union unionFromIt

/-- `difference_bc_1`. -/
def differenceBc1 : List Nat → TreePlus → Option TreePlus :=
  baseCase Ordered.difference differenceFromIt

/-- `difference_bc_2`. -/
def differenceBc2 (b1 b2 : TreePlus) : TreePlus := ⟨b2.plus.filter fun ngh => !b1.contains ngh, .null⟩

open Ordered

section Heads

variable {root : EdgeList} {f : Nat → Option (List Nat)} {T : Set Nat} {plus : List Nat}

theorem IsSet.leftmostKey_eq_none (set : IsSet ⟨plus, root⟩ T) (none : leftmostKey root = .none) :
    ∀ y ∈ T, ¬IsHead y := by
  obtain ⟨⟨f, map, segmented⟩, -⟩ := set
  intro y member isHead
  obtain ⟨c, found⟩ := (segmented.keys y).mpr ⟨member, isHead⟩
  rw [leftmostKey, Option.map_eq_none_iff, Tree.first_eq, List.head?_eq_none_iff] at none
  have here := (map.represents.mem_iff y c).mpr found
  rw [none] at here
  exact absurd here List.not_mem_nil

theorem IsSet.leftmostKey_eq_some {m : Nat} (set : IsSet ⟨plus, root⟩ T)
    (leftmost : leftmostKey root = some m) : m ∈ T ∧ IsHead m ∧ ∀ y ∈ T, IsHead y → m ≤ y := by
  obtain ⟨⟨f, map, segmented⟩, -⟩ := set
  obtain ⟨ordered, value⟩ := map.represents
  rw [leftmostKey, Tree.first_eq] at leftmost
  obtain ⟨⟨k, c⟩, head, rfl⟩ := Option.map_eq_some_iff.mp leftmost
  obtain ⟨rest, whole⟩ := List.head?_eq_some_iff.mp head
  rw [whole] at ordered value
  obtain ⟨member, isHead⟩ := (segmented.keys k).mp ⟨c, (value k c).mp (List.mem_cons_self ..)⟩
  refine ⟨member, isHead, fun y there isHead' => ?_⟩
  obtain ⟨d, found⟩ := (segmented.keys y).mpr ⟨there, isHead'⟩
  rcases List.mem_cons.mp ((value y d).mpr found) with same | later
  · exact (Prod.ext_iff.mp same).1.ge
  · exact (List.rel_of_pairwise_cons ordered later).le

/-- The head that a neighbour belongs to. -/
def headOf (root : EdgeList) (x : Nat) : Option Nat := (root.previous x).map Prod.fst

theorem find_eq_some (map : root.IsMap (Finset.range uintVMax) f) {k : Nat} {c : List Nat}
    (found : f k = some c) : ∃ e, root.find k = some e ∧ e.2 = c := by
  have value := map.value_eq
  have here : root.value k = some c := by rw [value, found]
  exact Option.map_eq_some_iff.mp here

/-- The greatest key below a neighbour. -/
theorem previous_eq_some (map : root.IsMap (Finset.range uintVMax) f) {x k₀ : Nat} {c₀ : List Nat}
    (first : f k₀ = some c₀) (less : k₀ < x) :
    ∃ k c, root.previous x = some (k, c) ∧ f k = some c ∧ k < x ∧
      ∀ j d, f j = some d → j < x → j ≤ k := by
  obtain ⟨ordered, value⟩ := map.represents
  have inside : ∀ j d, f j = some d → j < x → (j, d) ∈ root.entries.filter fun e => e.1 < x :=
    fun j d found less => List.mem_filter.mpr ⟨(value j d).mpr found, decide_eq_true less⟩
  rw [Tree.previous_eq ordered]
  cases last : (root.entries.filter fun e => e.1 < x).getLast? with
  | none =>
    rw [List.getLast?_eq_none_iff] at last
    exact absurd (last ▸ inside k₀ c₀ first less) List.not_mem_nil
  | some e =>
    obtain ⟨k, c⟩ := e
    obtain ⟨member, below⟩ := List.mem_filter.mp (List.mem_of_getLast? last)
    refine ⟨k, c, rfl, (value k c).mp member, of_decide_eq_true below, fun j d found less => ?_⟩
    obtain ⟨front, whole⟩ := List.getLast?_eq_some_iff.mp last
    have here := inside j d found less
    have sorted := ordered.filter fun e => decide (e.1 < x)
    rw [whole] at here sorted
    rcases List.mem_append.mp here with earlier | same
    · exact ((List.pairwise_append.mp sorted).2.2 _ earlier _ (List.mem_singleton_self _)).le
    · exact (Prod.ext_iff.mp (List.mem_singleton.mp same)).1.le

/-- The head of a neighbour is the greatest one before it. -/
theorem headOf_eq_iff (map : root.IsMap (Finset.range uintVMax) f) {x k k₀ : Nat}
    {c c₀ : List Nat} (first : f k₀ = some c₀) (late : k₀ < x) (found : f k = some c) :
    headOf root x = some k ↔ k < x ∧ ∀ j d, f j = some d → k < j → x ≤ j := by
  obtain ⟨i, e, previous, found', less, greatest⟩ := previous_eq_some map first late
  rw [headOf, previous]
  constructor
  · rintro ⟨⟩
    refine ⟨less, fun j d here after => ?_⟩
    by_contra before
    exact absurd after (greatest j d here (not_le.mp before)).not_gt
  · rintro ⟨after, next⟩
    have order := greatest k c found after
    rcases order.eq_or_lt with rfl | between
    · rfl
    · exact absurd less (next i e found' between).not_gt

theorem headOf_lt (map : root.IsMap (Finset.range uintVMax) f) {x k : Nat}
    (head : headOf root x = some k) : k < x := by
  obtain ⟨e, here, rfl⟩ := Option.map_eq_some_iff.mp head
  rw [Tree.previous_eq map.represents.ascending] at here
  exact of_decide_eq_true (List.mem_filter.mp (List.mem_of_getLast? here)).2

end Heads

section Groups

variable {op : List Nat → List Nat → List Nat}
  {create : List Nat → Nat → List Nat → List Nat × List Nat} {root : EdgeList}
  {f : Nat → Option (List Nat)} {Q T : Set Nat} {plus : List Nat}

/-- A group of the neighbours is read to its end and treated with its chunk, when the
chunk has those of the group that are in the set. -/
def Reads (op : List Nat → List Nat → List Nat)
    (create : List Nat → Nat → List Nat → List Nat × List Nat) (Q T : Set Nat) : Prop :=
  ∀ group rest c, group.Pairwise (· < ·) → c.Pairwise (· < ·) → (∀ x ∈ group, x ∈ Q) →
    (∀ x ∈ group, x ∈ T → x ∈ c) → create (group ++ rest) group.length c = (op group c, rest)

theorem reads_union : Reads Ordered.union unionFromIt Q T := by
  intro group rest c _ _ _ _
  rw [unionFromIt, List.take_left, List.drop_left]

/-- The difference reads a group to its end when all of it is in the set. -/
theorem reads_difference (subset : Q ⊆ T) : Reads Ordered.difference differenceFromIt Q T := by
  intro group rest c left right within inside
  rw [differenceFromIt, List.take_left, List.drop_left]
  split
  next =>
    rw [leftover_eq_nil left right fun x member => inside x member (subset (within x member))]
    rfl
  next empty => rw [not_not.mp empty, difference_nil_right]

/-- The chunks that a list changes. -/
def changed (op : List Nat → List Nat → List Nat) (root : EdgeList) (f : Nat → Option (List Nat))
    (l : List Nat) (k : Nat) : Option (List Nat) :=
  if l.filter (fun x => headOf root x = some k) = [] then .none
  else (f k).map (op (l.filter fun x => headOf root x = some k))

theorem changed_nil : changed op root f [] = fun _ => .none := by
  funext k
  rw [changed, List.filter_nil, if_pos rfl]

/-- One more group, after all others. -/
theorem represents_group {kvs : List (Nat × List Nat)} {old group c : List Nat} {k : Nat}
    (represents : Represents kvs (changed op root f old)) (some' : group ≠ [])
    (same : ∀ x ∈ group, headOf root x = some k)
    (early : ∀ x ∈ old, ∃ j, headOf root x = some j ∧ j < k) (found : f k = some c) :
    Represents (kvs ++ [(k, op group c)]) (changed op root f (old ++ group)) := by
  have none : ∀ j, k ≤ j → old.filter (fun x => headOf root x = some j) = [] := by
    intro j order
    rw [List.filter_eq_nil_iff]
    intro x member
    obtain ⟨i, here, less⟩ := early x member
    rw [here, decide_eq_true_eq]
    rintro ⟨⟩
    omega
  have all : group.filter (fun x => headOf root x = some k) = group :=
    List.filter_eq_self.mpr fun x member => decide_eq_true (same x member)
  have others : ∀ j, j ≠ k → group.filter (fun x => headOf root x = some j) = [] := by
    intro j other
    rw [List.filter_eq_nil_iff]
    intro x member
    rw [same x member, decide_eq_true_eq]
    rintro ⟨⟩
    exact other rfl
  rw [Represents.append_cons_iff]
  refine ⟨?_, ?_, ?_⟩
  · have low : below k (changed op root f (old ++ group)) = changed op root f old := by
      funext j
      rw [below]
      split
      next less => rw [changed, changed, List.filter_append, others j less.ne, List.append_nil]
      next late => rw [changed, if_pos (none j (not_lt.mp late))]
    rwa [low]
  · rw [changed, List.filter_append, none k le_rfl, all, List.nil_append, if_neg some', found]
    rfl
  · have high : above k (changed op root f (old ++ group)) = fun _ => .none := by
      funext j
      rw [above]
      split
      next more =>
        rw [changed, List.filter_append, none j more.le, others j more.ne', List.nil_append, if_pos rfl]
      next => rfl
    rw [high]
    exact Represents.nil

/-- A list of neighbours without heads, after the first head of a tree that is to
take them into its chunks. -/
structure Enters (op : List Nat → List Nat → List Nat)
    (create : List Nat → Nat → List Nat → List Nat × List Nat) (root : EdgeList)
    (f : Nat → Option (List Nat)) (plus : List Nat) (Q T : Set Nat) : Prop where
  map : root.IsMap (Finset.range uintVMax) f
  segmented : Segmented IsHead T plus f
  reads : Reads op create Q T
  plain : ∀ x ∈ Q, ¬IsHead x
  late : ∀ x ∈ Q, ∃ k c, f k = some c ∧ k < x

/-- A neighbour belongs to a head when it is after the head and before the next one. -/
theorem Enters.headOf_iff (enters : Enters op create root f plus Q T) {x k : Nat} {c : List Nat}
    (member : x ∈ Q) (found : f k = some c) :
    headOf root x = some k ↔ k < x ∧ ∀ y ∈ T, IsHead y → k < y → x < y := by
  obtain ⟨k₀, c₀, first, late⟩ := enters.late x member
  rw [headOf_eq_iff enters.map first late found]
  refine and_congr_right fun _ => ⟨fun next y there isHead after => ?_, fun next j d here after => ?_⟩
  · obtain ⟨d, here⟩ := (enters.segmented.keys y).mpr ⟨there, isHead⟩
    exact lt_of_le_of_ne (next y d here after) fun same => enters.plain x member (same ▸ isHead)
  · obtain ⟨there, isHead⟩ := (enters.segmented.keys j).mp ⟨d, here⟩
    exact (next j there isHead after).le

/-- What the loop knows: the finished groups, and the current one with its head. -/
structure Grouped (op : List Nat → List Nat → List Nat) (root : EdgeList)
    (f : Nat → Option (List Nat)) (Q : Set Nat) (s : Grouping) (old group rest : List Nat) :
    Prop where
  start : s.start = old.length
  it : s.it = group ++ rest
  ascending : (group ++ rest).Pairwise (· < ·)
  within : ∀ x ∈ group ++ rest, x ∈ Q
  finished : Represents s.kvs (changed op root f old)
  same : ∀ x ∈ group, headOf root x = some s.lastKey
  early : ∀ x ∈ old, ∃ j, headOf root x = some j ∧ j < s.lastKey

/-- The current group gets its chunk. -/
theorem createNewKey_grouped (enters : Enters op create root f plus Q T) {s : Grouping}
    {old group rest : List Nat} (grouped : Grouped op root f Q s old group rest) (some' : group ≠ [])
    {c : List Nat} (found : f s.lastKey = some c) :
    ∃ t, createNewKey create root s.lastKey s.start (old ++ group).length s = some t ∧
      t.it = rest ∧ Represents t.kvs (changed op root f (old ++ group)) := by
  obtain ⟨e, here, rfl⟩ := find_eq_some enters.map found
  have length : (old ++ group).length - s.start = group.length := by
    rw [grouped.start, List.length_append, Nat.add_sub_cancel_left]
  have chunk := enters.segmented.chunk s.lastKey e.2 found
  have within : ∀ x ∈ group, x ∈ Q := fun x member =>
    grouped.within x (List.mem_append_left rest member)
  have read : create (group ++ rest) group.length e.2 = (op group e.2, rest) := by
    refine enters.reads group rest e.2 (List.pairwise_append.mp grouped.ascending).1
      chunk.ascending within fun x member there => (chunk.mem_iff x).mpr ?_
    obtain ⟨after, next⟩ := (enters.headOf_iff (within x member) found).mp (grouped.same x member)
    exact ⟨⟨there, after⟩, fun y other isHead => next y other.1 isHead other.2⟩
  refine ⟨{ s with it := rest, kvs := s.kvs ++ [(s.lastKey, op group e.2)] }, ?_, rfl, ?_⟩
  · rw [createNewKey, here, Option.map_some, length, grouped.it, read]
  · exact represents_group grouped.finished some' grouped.same grouped.early found

/-- One neighbour joins the current group or starts the next one. -/
theorem mapF_grouped (enters : Enters op create root f plus Q T) {s : Grouping}
    {old group rest : List Nat} {x : Nat} (size : Nat)
    (grouped : Grouped op root f Q s old group (x :: rest))
    (begun : group = [] → s.lastKey = uintVMax ∧ old = [])
    (present : group ≠ [] → ∃ c, f s.lastKey = some c) :
    ∃ t old' group', Grouped op root f Q t old' group' rest ∧
      old' ++ group' = old ++ group ++ [x] ∧ group' ≠ [] ∧ (∃ c, f t.lastKey = some c) ∧
      mapF create root size s (x, (old ++ group).length) =
        if (old ++ group).length = size - 1 then createNewKey create root t.lastKey t.start size t
        else some t := by
  have member : x ∈ Q :=
    grouped.within x (List.mem_append_right group (List.mem_cons_self ..))
  have single : (x :: rest).Pairwise (· < ·) := (List.pairwise_append.mp grouped.ascending).2.1
  have within : ∀ y ∈ x :: rest, y ∈ Q := fun y there =>
    grouped.within y (List.mem_append_right group there)
  obtain ⟨k₀, c₀, first, late⟩ := enters.late x member
  obtain ⟨k, c, previous, found, less, greatest⟩ := previous_eq_some enters.map first late
  have small : ∀ j d, f j = some d → j < uintVMax := fun j d here =>
    Finset.mem_range.mp (enters.map.within j d here)
  have head : headOf root x = some k := by rw [headOf, previous]; rfl
  have alone : ∀ y ∈ [x], headOf root y = some k := fun y there => by
    rw [List.mem_singleton.mp there, head]
  simp only [mapF, previous, Option.bind_eq_bind, Option.bind_some]
  by_cases none : group = []
  · obtain ⟨unset, rfl⟩ := begun none
    subst none
    have other : k ≠ s.lastKey := by rw [unset]; exact (small k c found).ne
    refine ⟨{ s with start := 0, lastKey := k }, [], [x], ⟨rfl, grouped.it, single, within,
      grouped.finished, alone, nofun⟩, rfl, List.cons_ne_nil _ _, ⟨c, found⟩, ?_⟩
    rw [if_pos other, if_neg (not_not.mpr unset)]
    rfl
  obtain ⟨d, current⟩ := present none
  by_cases same : k = s.lastKey
  · have assoc : group ++ [x] ++ rest = group ++ x :: rest := by
      rw [List.append_assoc, List.singleton_append]
    refine ⟨s, old, group ++ [x], ⟨grouped.start, by rw [assoc, grouped.it],
      assoc ▸ grouped.ascending, assoc ▸ grouped.within, grouped.finished, ?_, grouped.early⟩,
      (List.append_assoc ..).symm, List.append_ne_nil_of_right_ne_nil group (List.cons_ne_nil x []),
      ⟨d, current⟩, ?_⟩
    · intro y there
      rcases List.mem_append.mp there with earlier | here
      · exact grouped.same y earlier
      · rw [alone y here, same]
    · rw [if_neg (not_not.mpr same), same]
  · -- the head changes, and the group before it is finished
    obtain ⟨t, created, it, finished⟩ := createNewKey_grouped enters grouped none current
    have after : s.lastKey < k := by
      obtain ⟨y, there⟩ := List.exists_mem_of_ne_nil group none
      have before := headOf_lt enters.map (grouped.same y there)
      have less := (List.pairwise_append.mp grouped.ascending).2.2 y there x (List.mem_cons_self ..)
      exact lt_of_le_of_ne (greatest _ d current (before.trans less)) (Ne.symm same)
    refine ⟨{ t with start := (old ++ group).length, lastKey := k }, old ++ group, [x],
      ⟨rfl, it, single, within, finished, alone, ?_⟩, rfl, List.cons_ne_nil _ _, ⟨c, found⟩, ?_⟩
    · intro y there
      rcases List.mem_append.mp there with earlier | here
      · obtain ⟨j, at', before⟩ := grouped.early y earlier
        exact ⟨j, at', before.trans after⟩
      · exact ⟨s.lastKey, grouped.same y here, after⟩
    · rw [if_pos same, if_pos (small _ _ current).ne, created]
      rfl

/-- The loop makes the chunks that the neighbours change. -/
theorem foldlM_mapF (enters : Enters op create root f plus Q T) {q rest : List Nat}
    (more : rest ≠ []) {s : Grouping} {old group : List Nat}
    (grouped : Grouped op root f Q s old group rest) (whole : old ++ group ++ rest = q)
    (begun : group = [] → s.lastKey = uintVMax ∧ old = [])
    (present : group ≠ [] → ∃ c, f s.lastKey = some c) :
    ∃ t, (rest.zipIdx (old ++ group).length).foldlM (mapF create root q.length) s = some t ∧
      Represents t.kvs (changed op root f q) := by
  induction rest generalizing s old group with
  | nil => exact absurd rfl more
  | cons x rest ih =>
    obtain ⟨t, old', group', grouped', parts, some', ⟨c, found⟩, stepped⟩ :=
      mapF_grouped enters q.length grouped begun present
    have whole' : old' ++ group' ++ rest = q := by
      rw [parts, List.append_assoc, List.singleton_append, whole]
    have length : (old' ++ group').length = (old ++ group).length + 1 := by
      rw [parts, List.length_append, List.length_singleton]
    have total := congrArg List.length whole
    rw [List.length_append, List.length_cons] at total
    rw [List.zipIdx_cons, List.foldlM_cons, stepped]
    cases rest with
    | nil =>
      rw [List.append_nil] at whole'
      rw [List.length_nil] at total
      rw [if_pos (by omega)]
      obtain ⟨u, created, -, finished⟩ := createNewKey_grouped enters grouped' some' found
      rw [whole'] at created finished
      rw [created]
      exact ⟨u, rfl, finished⟩
    | cons y rest =>
      rw [List.length_cons] at total
      rw [if_neg (by omega)]
      have result := ih (List.cons_ne_nil y rest) grouped' whole' (fun none => absurd none some')
        fun _ => ⟨c, found⟩
      rw [length] at result
      exact result

end Groups

section Sets

variable {op : List Nat → List Nat → List Nat} {rule : Prop → Prop → Prop}
  {create : List Nat → Nat → List Nat → List Nat × List Nat} {root : EdgeList}
  {f : Nat → Option (List Nat)} {P Q T : Set Nat} {plus p q : List Nat}

/-- After a head come the neighbours that it gets and those of its chunk. -/
theorem leading_after (pointwise : Pointwise op rule) (enters : Enters op create root f plus Q T)
    {k : Nat} {c : List Nat} (found : f k = some c) :
    {x | rule (x ∈ Q ∧ headOf root x = some k) (x ∈ leading IsHead (T ∩ Set.Ioi k))} =
      leading IsHead ({x | rule (x ∈ Q) (x ∈ T)} ∩ Set.Ioi k) := by
  have heads : ∀ y, IsHead y → (rule (y ∈ Q) (y ∈ T) ↔ y ∈ T) := fun y isHead =>
    pointwise.of_not fun inside => enters.plain y inside isHead
  ext x
  by_cases between : k < x ∧ ∀ y ∈ T, IsHead y → k < y → x < y
  · have entered : (x ∈ Q ∧ headOf root x = some k) ↔ x ∈ Q :=
      and_iff_left_of_imp fun member => (enters.headOf_iff member found).mpr between
    have leads : x ∈ leading IsHead (T ∩ Set.Ioi k) ↔ x ∈ T :=
      ⟨fun leads => leads.1.1, fun there => ⟨⟨there, between.1⟩, fun y other isHead =>
        between.2 y other.1 isHead other.2⟩⟩
    rw [Set.mem_ofPred_eq, entered, leads]
    exact ⟨fun ruled => ⟨⟨ruled, between.1⟩, fun y other isHead =>
      between.2 y ((heads y isHead).mp other.1) isHead other.2⟩, fun leads => leads.1.1⟩
  · constructor
    · intro ruled
      rcases pointwise.either ruled with ⟨member, head⟩ | leads
      · exact absurd ((enters.headOf_iff member found).mp head) between
      · exact absurd ⟨leads.1.2, fun y other isHead after => leads.2 y ⟨other, after⟩ isHead⟩ between
    · intro leads
      refine absurd ⟨leads.1.2, fun y other isHead after => ?_⟩ between
      exact leads.2 y ⟨(heads y isHead).mpr other, after⟩ isHead

/-- The value of a head is its chunk with the neighbours that it gets. -/
theorem replaced_eq (pointwise : Pointwise op rule) {d : List Nat} {D : Set Nat} {k : Nat}
    (found : f k = some d) (chunk : Lists d D) :
    Tree.unionValue (fun _ b => b) (f k) (changed op root f q k) =
      some (op (q.filter fun x => headOf root x = some k) d) := by
  rw [changed]
  split
  next none => rw [none, found, pointwise.nil_left chunk, Tree.unionValue]
  next => rw [found]; rfl

theorem changed_eq_none {k : Nat} (none : f k = .none) : changed op root f q k = .none := by
  rw [changed, none]
  split
  next => rfl
  next => rfl

/-- The list goes into the chunks of the heads before its neighbours. -/
theorem isSet_insertGroups (pointwise : Pointwise op rule) (reads : Reads op create Q T)
    {k₀ : Nat} (set : IsSet ⟨plus, root⟩ T) (lists : Lists q Q) (some' : q ≠ [])
    (plain : ∀ x ∈ Q, ¬IsHead x ∧ x < uintVMax) (member : k₀ ∈ T) (isHead : IsHead k₀)
    (late : ∀ x ∈ Q, k₀ < x) :
    ∃ r, insertGroups create root q = some r ∧ IsSet ⟨plus, r⟩ {x | rule (x ∈ Q) (x ∈ T)} := by
  obtain ⟨⟨f, map, segmented⟩, within⟩ := set
  obtain ⟨c₀, first⟩ := (segmented.keys k₀).mpr ⟨member, isHead⟩
  have enters : Enters op create root f plus Q T :=
    ⟨map, segmented, reads, fun x new => (plain x new).1, fun x new => ⟨k₀, c₀, first, late x new⟩⟩
  have begun : Grouped op root f Q ⟨uintVMax, 0, q, []⟩ [] [] q :=
    ⟨rfl, rfl, lists.ascending, fun x => (lists.mem_iff x).mp, changed_nil ▸ Represents.nil,
      nofun, nofun⟩
  obtain ⟨t, run, represents⟩ := foldlM_mapF enters some' begun rfl (fun _ => ⟨rfl, rfl⟩)
    fun none => absurd rfl none
  have known : ∀ k v, changed op root f q k = some v → ∃ d, f k = some d := by
    intro k v value
    cases found : f k with
    | some d => exact ⟨d, rfl⟩
    | none =>
      rw [changed_eq_none found] at value
      cases value
  have inserted := map.multiInsertSortedWithValues room (fun _ _ b => b) represents
    fun k v value => by
      obtain ⟨d, found⟩ := known k v value
      exact map.within k d found
  have heads : ∀ y, IsHead y → (rule (y ∈ Q) (y ∈ T) ↔ y ∈ T) := fun y isHead =>
    pointwise.of_not fun inside => enters.plain y inside isHead
  have keys : ∀ k, (∃ c, Tree.unionValue (fun _ b => b) (f k) (changed op root f q k) = some c) ↔
      ∃ c, f k = some c := by
    intro k
    constructor
    · rintro ⟨c, value⟩
      cases found : f k with
      | some d => exact ⟨d, rfl⟩
      | none =>
        rw [found, changed_eq_none found] at value
        cases value
    · rintro ⟨d, found⟩
      exact ⟨_, replaced_eq pointwise found (segmented.chunk k d found)⟩
  refine ⟨_, by rw [insertGroups]; exact congrArg (Option.map _) run, ⟨_, inserted, ?_⟩, ?_⟩
  · refine segmented.refill heads (segmented.plus.congr fun x => ?_) keys fun k c value => ?_
    · constructor
      · intro leads
        refine ⟨(pointwise.of_not fun new => ?_).mpr leads.1, fun y there isHead =>
          leads.2 y ((heads y isHead).mp there) isHead⟩
        exact (late x new).not_gt (leads.2 k₀ member isHead)
      · rintro ⟨ruled, before⟩
        have early := before k₀ ((heads k₀ isHead).mpr member) isHead
        rcases pointwise.either ruled with new | old
        · exact absurd early (late x new).not_gt
        · exact ⟨old, fun y there isHead => before y ((heads y isHead).mpr there) isHead⟩
    · obtain ⟨d, found⟩ := (keys k).mp ⟨c, value⟩
      have chunk := segmented.chunk k d found
      obtain rfl := Option.some.inj ((replaced_eq pointwise found chunk).symm.trans value)
      have group : Lists (q.filter fun x => headOf root x = some k)
          {x | x ∈ Q ∧ headOf root x = some k} := (lists.filter _).congr fun x => by
        rw [Set.mem_ofPred_eq, decide_eq_true_eq, Set.mem_ofPred_eq]
      rw [← leading_after pointwise enters found]
      exact pointwise.lists group chunk
  · intro x ruled
    rcases pointwise.either ruled with new | old
    · exact (plain x new).2
    · exact within x old

/-- A list before all heads is treated with the plus. -/
theorem IsSet.onPlus (pointwise : Pointwise op rule) (set : IsSet ⟨plus, root⟩ T)
    (lists : Lists p P) (low : ∀ x ∈ P, ¬IsHead x ∧ x < uintVMax ∧ ∀ y ∈ T, IsHead y → x < y) :
    IsSet ⟨op p plus, root⟩ {x | rule (x ∈ P) (x ∈ T)} := by
  refine (set.setPlus (pointwise.lists lists set.plus_lists) ?_).congr fun x => ?_
  · intro x ruled
    rcases pointwise.either ruled with new | leads
    · exact low x new
    · exact ⟨not_head_of_leading leads, set.within x leads.1, leads.2⟩
  · rw [Set.mem_union, Set.mem_sdiff, Set.mem_ofPred_eq, Set.mem_ofPred_eq]
    by_cases leads : x ∈ leading IsHead T
    · rw [eq_true leads, eq_true leads.1]
      exact ⟨fun h => h.resolve_right fun h => h.2 trivial, .inl⟩
    by_cases there : x ∈ T
    · obtain ⟨y, other, isHead, order⟩ := exists_head_le there leads
      have old : x ∉ P := fun new => (low x new).2.2 y other isHead |>.not_ge order
      rw [pointwise.of_not old, pointwise.of_not old]
      exact ⟨fun h => h.elim And.left And.left, fun h => .inr ⟨h, leads⟩⟩
    · rw [eq_false leads, eq_false there]
      exact ⟨fun h => h.resolve_right fun h => h.1, .inl⟩

/-- A list and a tree. -/
theorem isSet_baseCase {b2 : TreePlus} (pointwise : Pointwise op rule) (reads : Reads op create P T)
    (left : IsSet ⟨p, .null⟩ P) (right : IsSet b2 T) (present : b2.empty = false) :
    ∃ r, baseCase op create p b2 = some r ∧ IsSet r {x | rule (x ∈ P) (x ∈ T)} := by
  obtain ⟨lists, noHead, within⟩ := isSet_leaf_iff.mp left
  obtain ⟨plus, root⟩ := b2
  rw [baseCase]
  cases root with
  | null =>
    have some' : plus ≠ [] := by
      rintro rfl
      cases present
    rw [if_pos (by simp [hasPlus, hasTree, some'])]
    refine ⟨_, rfl, right.onPlus pointwise lists fun x new => ⟨noHead x new, within x new, ?_⟩⟩
    exact fun y there isHead => absurd isHead ((isSet_leaf_iff.mp right).2.1 y there)
  | node lc e rc s aug =>
    rw [if_neg (by simp [hasTree])]
    cases leftmost : leftmostKey (.node lc e rc s aug) with
    | none =>
      rw [leftmostKey, Option.map_eq_none_iff, Tree.first_eq, List.head?_eq_none_iff] at leftmost
      simp [Tree.entries] at leftmost
    | some m =>
      obtain ⟨member, isHead, least⟩ := right.leftmostKey_eq_some leftmost
      have before : ∀ x ∈ P ∩ Set.Iio m, ¬IsHead x ∧ x < uintVMax ∧ ∀ y ∈ T, IsHead y → x < y :=
        fun x new => ⟨noHead x new.1, within x new.1, fun y there isHead' =>
          lt_of_lt_of_le new.2 (least y there isHead')⟩
      rw [Option.bind_some]
      by_cases early : getLastKey p < m
      · -- the list ends before the tree
        have all : ∀ x ∈ P, x < m := fun x new =>
          (le_getLastKey lists ((lists.mem_iff x).mpr new)).trans_lt early
        rw [if_pos early]
        exact ⟨_, rfl, right.onPlus pointwise lists fun x new => before x ⟨new, all x new⟩⟩
      · rw [if_neg early]
        have low : Lists (p.filter (· < m)) (P ∩ Set.Iio m) := (lists.filter _).congr fun x => by
          rw [Set.mem_ofPred_eq, decide_eq_true_eq]
          rfl
        have high : Lists (p.filter (m < ·)) (P ∩ Set.Ioi m) := (lists.filter _).congr fun x => by
          rw [Set.mem_ofPred_eq, decide_eq_true_eq]
          rfl
        have base := right.onPlus pointwise low before
        have late : ∀ x, m < x → (rule (x ∈ P ∩ Set.Iio m) (x ∈ T) ↔ x ∈ T) := fun x more =>
          pointwise.of_not fun new => more.not_gt new.2
        have kept : rule (m ∈ P ∩ Set.Iio m) (m ∈ T) :=
          (pointwise.of_not fun new => lt_irrefl m new.2).mpr member
        have whole : ∀ x, rule (x ∈ P ∩ Set.Ioi m) (rule (x ∈ P ∩ Set.Iio m) (x ∈ T)) ↔
            rule (x ∈ P) (x ∈ T) := by
          intro x
          rcases lt_trichotomy x m with less | rfl | more
          · have first : x ∈ P ∩ Set.Iio m ↔ x ∈ P := and_iff_left less
            rw [pointwise.of_not fun new => less.not_gt new.2, first]
          · have none : x ∉ P := fun new => noHead x new isHead
            rw [pointwise.of_not fun new => none new.1, pointwise.of_not fun new => none new.1,
              pointwise.of_not none]
          · have second : x ∈ P ∩ Set.Ioi m ↔ x ∈ P := and_iff_left more
            rw [late x more, second]
        have unfound : p.contains m = false :=
          Bool.eq_false_iff.mpr fun here =>
            noHead m ((lists.mem_iff m).mp (List.contains_iff_mem.mp here)) isHead
        change ∃ r, (if p.contains m then .none else if p.filter (m < ·) ≠ [] then
            (insertGroups create (.node lc e rc s aug) (p.filter (m < ·))).map
              (TreePlus.mk (op (p.filter (· < m)) plus))
          else some ⟨op (p.filter (· < m)) plus, .node lc e rc s aug⟩) = some r ∧
            IsSet r {x | rule (x ∈ P) (x ∈ T)}
        rw [unfound, if_neg Bool.false_ne_true]
        by_cases some' : p.filter (m < ·) = []
        · rw [if_neg (not_not.mpr some')]
          refine ⟨_, rfl, base.congr fun x => ?_⟩
          have none : x ∉ P ∩ Set.Ioi m := by
            rw [high.eq_nil_iff.mp some']
            exact Set.notMem_empty x
          exact (pointwise.of_not none).symm.trans (whole x)
        · rw [if_pos some']
          have reads' : Reads op create (P ∩ Set.Ioi m)
              {x | rule (x ∈ P ∩ Set.Iio m) (x ∈ T)} := by
            intro group rest c ascending chunk inside there
            refine reads group rest c ascending chunk (fun x new => (inside x new).1) ?_
            exact fun x new old => there x new ((late x (inside x new).2).mpr old)
          obtain ⟨r, inserted, set⟩ := isSet_insertGroups pointwise reads' base high some'
            (fun x new => ⟨noHead x new.1, within x new.1⟩) kept isHead fun x new => new.2
          exact ⟨_, congrArg (Option.map _) inserted, set.congr whole⟩

theorem isSet_unionBc {b2 : TreePlus} (left : IsSet ⟨p, .null⟩ P) (right : IsSet b2 T)
    (present : b2.empty = false) : ∃ r, unionBc p b2 = some r ∧ IsSet r (P ∪ T) :=
  isSet_baseCase pointwise_union reads_union left right present

theorem isSet_differenceBc1 {b2 : TreePlus} (left : IsSet ⟨p, .null⟩ P) (right : IsSet b2 T)
    (present : b2.empty = false) (subset : P ⊆ T) :
    ∃ r, differenceBc1 p b2 = some r ∧ IsSet r (T \ P) := by
  have result := isSet_baseCase pointwise_difference (reads_difference subset) left right present
  exact result

theorem isSet_differenceBc2 {b1 : TreePlus} (first : IsSet b1 P) (second : IsSet ⟨plus, .null⟩ T) :
    IsSet (differenceBc2 b1 ⟨plus, .null⟩) (T \ P) := by
  obtain ⟨lists, noHead, within⟩ := isSet_leaf_iff.mp second
  refine isSet_leaf_iff.mpr ⟨(lists.filter _).congr fun x => ?_, fun x rest => noHead x rest.1,
    fun x rest => within x rest.1⟩
  rw [Set.mem_ofPred_eq, Set.mem_sdiff, ← first.contains_iff, Bool.not_eq_true', Bool.not_eq_true]

end Sets

end TreePlus

end Zeppelin.Aspen
