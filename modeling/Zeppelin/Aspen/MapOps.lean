import Zeppelin.Aspen.WeightBalanced
import Zeppelin.Ordered.PartialMap
import Mathlib.Data.Finset.Card

/-! Ordered maps on weight-balanced trees, from `sequence_ops.h`, `map_ops.h` and
`binary_search.h`. Calls that the code may run in parallel work on disjoint
parts and have the value of the sequential calls. -/
namespace Zeppelin.Aspen

/-- `pbbs::linear_search`: the first index where `less` is false. -/
def linearSearch {α : Type} (less : α → Bool) : List α → Nat
  | [] => 0
  | a :: l => if less a then linearSearch less l + 1 else 0

/-- The loop of `pbbs::binary_search`. -/
def binarySearchLoop {α : Type} (less : α → Bool) (l : List α) (start stop : Nat) : Nat × Nat :=
  if 16 < stop - start then
    let mid := (stop + start) / 2
    if (l[mid]?).any less then binarySearchLoop less l (mid + 1) stop
    else binarySearchLoop less l start mid
  else (start, stop)
  termination_by stop - start

/-- `pbbs::binary_search`: the first index where `less` is false. -/
def binarySearch {α : Type} (less : α → Bool) (l : List α) : Nat :=
  let (start, stop) := binarySearchLoop less l 0 l.length
  start + linearSearch less ((l.take stop).drop start)

section BinarySearch

variable {α : Type} {less : α → Bool} {l r : List α}

theorem linearSearch_append (all : ∀ a ∈ l, less a = true) (none : ∀ a ∈ r, less a = false) :
    linearSearch less (l ++ r) = l.length := by
  induction l with
  | nil =>
    cases r with
    | nil => rfl
    | cons a r => simp [linearSearch, none a (List.mem_cons_self ..)]
  | cons a l ih =>
    rw [List.cons_append, linearSearch, if_pos (all a (List.mem_cons_self ..)),
      ih fun x member => all x (List.mem_cons_of_mem _ member), List.length_cons]

theorem getElem?_any_append (all : ∀ a ∈ l, less a = true) (none : ∀ a ∈ r, less a = false)
    (i : Nat) : ((l ++ r)[i]?).any less = true ↔ i < l.length := by
  by_cases inside : i < l.length
  · rw [List.getElem?_append_left inside, List.getElem?_eq_getElem inside]
    simpa [inside] using all _ (List.getElem_mem inside)
  · rw [List.getElem?_append_right (by omega)]
    cases found : r[i - l.length]? with
    | none => simpa using inside
    | some b => simpa [none b (List.mem_of_getElem? found)] using inside

/-- The change from true to false stays between the two ends. -/
theorem binarySearchLoop_brackets (all : ∀ a ∈ l, less a = true)
    (none : ∀ a ∈ r, less a = false) {start stop : Nat} (low : start ≤ l.length)
    (high : l.length ≤ stop) :
    (binarySearchLoop less (l ++ r) start stop).1 ≤ l.length ∧
      l.length ≤ (binarySearchLoop less (l ++ r) start stop).2 := by
  induction start, stop using binarySearchLoop.induct less (l ++ r) with
  | case1 start stop more mid true ih =>
    have before := (getElem?_any_append all none mid).mp true
    rw [binarySearchLoop, if_pos more]
    simp only [mid] at true
    rw [if_pos true]
    exact ih (by omega) high
  | case2 start stop more mid false ih =>
    have after := (getElem?_any_append all none mid).not.mp false
    rw [binarySearchLoop, if_pos more]
    simp only [mid] at false
    rw [if_neg false]
    exact ih low (by omega)
  | case3 start stop done =>
    rw [binarySearchLoop, if_neg done]
    exact ⟨low, high⟩

theorem binarySearch_append (all : ∀ a ∈ l, less a = true) (none : ∀ a ∈ r, less a = false) :
    binarySearch less (l ++ r) = l.length := by
  obtain ⟨low, high⟩ := binarySearchLoop_brackets all none (Nat.zero_le _)
    (show l.length ≤ (l ++ r).length by simp)
  rw [binarySearch]
  generalize binarySearchLoop less (l ++ r) 0 (l ++ r).length = ends at low high
  obtain ⟨start, stop⟩ := ends
  simp only at low high ⊢
  rw [List.take_append, List.take_of_length_le high, List.drop_append_of_le_length low,
    linearSearch_append (fun a member => all a (List.mem_of_mem_drop member))
      (fun a member => none a (List.mem_of_mem_take member)), List.length_drop]
  omega

end BinarySearch

namespace Tree

variable {K V A : Type} [AugEntry K V A]

/-- `join2`: the trees one after the other, without an entry between them. -/
def join2 : Tree K V A → Tree K V A → Tree K V A
  | null, b2 => b2
  | b1, null => b1
  | b1@(node l1 e1 r1 _ _), b2@(node l2 e2 r2 _ _) =>
    if b2.size < b1.size then nodeJoin l1 (join2 r1 b2) e1 else nodeJoin (join2 b1 l2) r2 e2
  termination_by b1 b2 => sizeOf b1 + sizeOf b2

/-- `filter`. -/
def filter (p : K × V → Bool) : Tree K V A → Tree K V A
  | null => null
  | node lc e rc _ _ =>
    if p e then nodeJoin (lc.filter p) (rc.filter p) e else join2 (lc.filter p) (rc.filter p)

/-- `from_array`, on entries by ascending keys. -/
def fromArray (l : List (K × V)) : Tree K V A :=
  match l with
  | [] => null
  | [e] => single e
  | a :: b :: l =>
    let mid := (a :: b :: l).length / 2
    match _h : (a :: b :: l).drop mid with
    | [] => null
    | m :: rest => nodeJoin (fromArray ((a :: b :: l).take mid)) (fromArray rest) m
  termination_by l.length
  decreasing_by
  · simp only [List.length_take, List.length_cons]
    omega
  · have := congrArg List.length _h
    simp only [List.length_drop, List.length_cons] at this ⊢
    omega

section Maps

variable [LinearOrder K]

/-- `split_info`. -/
structure SplitInfo (K V A : Type) where
  first : Tree K V A
  entry : Option (K × V)
  second : Tree K V A

/-- `split`: its two versions differ in the nodes that they reuse. -/
def split (k : K) : Tree K V A → SplitInfo K V A
  | null => ⟨null, none, null⟩
  | node lc e rc _ _ =>
    if e.1 < k then
      let bstpair := split k rc
      { bstpair with first := nodeJoin lc bstpair.first e }
    else if k < e.1 then
      let bstpair := split k lc
      { bstpair with second := nodeJoin bstpair.second rc e }
    else ⟨lc, some e, rc⟩

/-- `uniont`. -/
def uniont (op : V → V → V) : Tree K V A → Tree K V A → Tree K V A
  | b1, null => b1
  | null, b2 => b2
  | b1@(node ..), node l2 e r2 _ _ =>
    let bsts := split e.1 b1
    let r := match bsts.entry with
      | some e1 => (e.1, op e1.2 e.2)
      | none => e
    nodeJoin (uniont op bsts.first l2) (uniont op bsts.second r2) r

/-- `intersect`. -/
def intersect (op : V → V → V) : Tree K V A → Tree K V A → Tree K V A
  | _, null => null
  | null, _ => null
  | b1@(node ..), node l2 e r2 _ _ =>
    let bsts := split e.1 b1
    match bsts.entry with
    | some e1 => nodeJoin (intersect op bsts.first l2) (intersect op bsts.second r2) (e.1, op e1.2 e.2)
    | none => join2 (intersect op bsts.first l2) (intersect op bsts.second r2)

/-- `difference`: what is in the first tree and not in the second. -/
def difference : Tree K V A → Tree K V A → Tree K V A
  | null, _ => null
  | b1, null => b1
  | node l1 e r1 _ _, b2@(node ..) =>
    let bsts := split e.1 b2
    match bsts.entry with
    | some _ => join2 (difference l1 bsts.first) (difference r1 bsts.second)
    | none => nodeJoin (difference l1 bsts.first) (difference r1 bsts.second) e

/-- `insert`, with the value for a key that is there. -/
def insert (e : K × V) (f : V → V → V) : Tree K V A → Tree K V A
  | null => single e
  | node lc o rc _ _ =>
    if o.1 < e.1 then nodeJoin lc (insert e f rc) o
    else if e.1 < o.1 then nodeJoin (insert e f lc) rc o
    else nodeJoin lc rc (o.1, f o.2 e.2)

/-- `deletet`. -/
def deletet (k : K) : Tree K V A → Tree K V A
  | null => null
  | node lc o rc _ _ =>
    if o.1 < k then nodeJoin lc (deletet k rc) o
    else if k < o.1 then nodeJoin (deletet k lc) rc o
    else join2 lc rc

/-- `multi_insert_sorted_with_values`, on entries by ascending keys. -/
def multiInsertSortedWithValues (op : K → V → V → V) (l : List (K × V)) :
    Tree K V A → Tree K V A
  | null => fromArray l
  | b@(node lc e rc _ _) =>
    match l with
    | [] => b
    | l =>
      let mid := binarySearch (fun a => a.1 < e.1) l
      match (l.drop mid).head?.filter fun a => !(e.1 < a.1) with
      | some a =>
        nodeJoin (multiInsertSortedWithValues op (l.take mid) lc)
          (multiInsertSortedWithValues op (l.drop (mid + 1)) rc) (e.1, op a.1 e.2 a.2)
      | none =>
        nodeJoin (multiInsertSortedWithValues op (l.take mid) lc)
          (multiInsertSortedWithValues op (l.drop mid) rc) e

/-- `multi_insert_sorted`. -/
def multiInsertSorted (op : V → V → V) (l : List (K × V)) (b : Tree K V A) : Tree K V A :=
  multiInsertSortedWithValues (fun _ => op) l b

end Maps

section Sequences

/-- The middle entry is the root. -/
theorem fromArray_eq {a b m : K × V} {l rest : List (K × V)}
    (cut : (a :: b :: l).drop ((a :: b :: l).length / 2) = m :: rest) :
    (fromArray (a :: b :: l) : Tree K V A) =
      nodeJoin (fromArray ((a :: b :: l).take ((a :: b :: l).length / 2))) (fromArray rest) m := by
  rw [fromArray]
  split
  next none =>
    rw [cut] at none
    cases none
  next m' rest' cut' =>
    obtain ⟨rfl, rfl⟩ := List.cons_eq_cons.mp (cut.symm.trans cut')
    rfl


theorem entries_fromArray (l : List (K × V)) : (fromArray l : Tree K V A).entries = l := by
  induction l using fromArray.induct (K := K) (V := V) with
  | case1 => rw [fromArray, entries]
  | case2 e => rw [fromArray, single, entries, entries, List.nil_append]
  | case3 a b l mid =>
    rename_i none
    have := congrArg List.length none
    simp only [mid, List.length_drop, List.length_cons, List.length_nil] at this
    omega
  | case4 a b l mid m rest cut ihl =>
    rename_i ihr
    rw [fromArray_eq cut, entries_nodeJoin, ihl, ihr, ← cut, List.take_append_drop]

theorem Cached.weight_node {lc rc : Tree K V A} {e : K × V} {s : Nat} {aug : A}
    (cached : (node lc e rc s aug).Cached) :
    (node lc e rc s aug).weight = lc.weight + rc.weight := by
  rw [cached.1, weight_update]

theorem Cached.weight_eq {t : Tree K V A} (cached : t.Cached) : t.weight = t.entries.length + 1 := by
  rw [weight, cached.size_eq]

theorem join2_null (b1 : Tree K V A) : join2 b1 null = b1 := by
  cases b1 with
  | null => rw [join2]
  | node lc e rc s aug =>
    rw [join2]
    exact nofun

theorem entries_join2 (b1 b2 : Tree K V A) : (join2 b1 b2).entries = b1.entries ++ b2.entries := by
  induction b1, b2 using join2.induct with
  | case1 b2 =>
    rw [join2]
    rfl
  | case2 b1 other => rw [join2_null, entries, List.append_nil]
  | case3 l1 e1 r1 s1 a1 l2 e2 r2 s2 a2 less ih =>
    rw [join2, if_pos less, entries_nodeJoin, ih]
    simp only [entries, List.append_assoc, List.cons_append]
  | case4 l1 e1 r1 s1 a1 l2 e2 r2 s2 a2 less ih =>
    rw [join2, if_neg less, entries_nodeJoin, ih]
    simp only [entries, List.append_assoc, List.cons_append]

theorem Cached.join2 {b1 b2 : Tree K V A} (left : b1.Cached) (right : b2.Cached) :
    (join2 b1 b2).Cached := by
  induction b1, b2 using join2.induct with
  | case1 b2 =>
    rw [Tree.join2]
    exact right
  | case2 b1 other =>
    rw [join2_null]
    exact left
  | case3 l1 e1 r1 s1 a1 l2 e2 r2 s2 a2 less ih =>
    rw [Tree.join2, if_pos less]
    exact left.2.1.nodeJoin (ih left.2.2 right) e1
  | case4 l1 e1 r1 s1 a1 l2 e2 r2 s2 a2 less ih =>
    rw [Tree.join2, if_neg less]
    exact (ih left right.2.1).nodeJoin right.2.2 e2

theorem Cached.weight_join2 {b1 b2 : Tree K V A} (left : b1.Cached) (right : b2.Cached) :
    (Tree.join2 b1 b2).weight + 1 = b1.weight + b2.weight := by
  rw [(left.join2 right).weight_eq, entries_join2, left.weight_eq, right.weight_eq,
    List.length_append]
  omega

omit [AugEntry K V A] in
theorem checkBalance_children {lc rc : Tree K V A} {e : K × V} {s : Nat} {aug : A}
    (balanced : checkBalance (node lc e rc s aug) = true) :
    checkBalance lc = true ∧ checkBalance rc = true := by
  rw [checkBalance, Bool.and_eq_true, Bool.and_eq_true] at balanced
  exact balanced.2

theorem checkBalance_join2 {b1 b2 : Tree K V A} (cachedL : b1.Cached) (cachedR : b2.Cached)
    (small : b1.weight + b2.weight ≤ 2 ^ 34) (left : checkBalance b1 = true)
    (right : checkBalance b2 = true) : checkBalance (join2 b1 b2) = true := by
  induction b1, b2 using join2.induct with
  | case1 b2 =>
    rw [join2]
    exact right
  | case2 b1 other =>
    rw [join2_null]
    exact left
  | case3 l1 e1 r1 s1 a1 l2 e2 r2 s2 a2 less ih =>
    rw [join2, if_pos less]
    have parts := cachedL.weight_node
    have rest := cachedL.2.2.weight_join2 cachedR
    obtain ⟨balL, balR⟩ := checkBalance_children left
    exact checkBalance_nodeJoin e1 cachedL.2.1 (cachedL.2.2.join2 cachedR) (by omega) balL
      (ih cachedL.2.2 cachedR (by omega) balR right)
  | case4 l1 e1 r1 s1 a1 l2 e2 r2 s2 a2 less ih =>
    rw [join2, if_neg less]
    have parts := cachedR.weight_node
    have rest := cachedL.weight_join2 cachedR.2.1
    obtain ⟨balL, balR⟩ := checkBalance_children right
    exact checkBalance_nodeJoin e2 (cachedL.join2 cachedR.2.1) cachedR.2.2 (by omega)
      (ih cachedL cachedR.2.1 (by omega) left balL) balR

end Sequences

section Values

/-- The value of a union at a key. -/
def unionValue (op : V → V → V) : Option V → Option V → Option V
  | some a, some b => some (op a b)
  | some a, none => some a
  | none, b => b

def intersectValue (op : V → V → V) : Option V → Option V → Option V
  | some a, some b => some (op a b)
  | _, _ => none

def differenceValue {W : Type} : Option V → Option W → Option V
  | a, none => a
  | _, some _ => none

/-- The map with one entry. -/
def singleton {W : Type} [DecidableEq K] (k : K) (v : W) (x : K) : Option W :=
  if x = k then some v else none

omit [AugEntry K V A] in
theorem differenceValue_none {W : Type} (a : Option V) :
    differenceValue a (none : Option W) = a := by
  cases a with
  | none => rfl
  | some v => rfl

omit [AugEntry K V A] in
theorem unionValue_none (op : V → V → V) (a : Option V) : unionValue op a none = a := by
  cases a with
  | none => rfl
  | some v => rfl

section Singleton

variable [LinearOrder K] {W : Type} {j k : K}

omit [AugEntry K V A]

theorem below_singleton (less : k < j) (v : W) :
    Ordered.below j (singleton k v) = singleton k v := by
  funext x
  by_cases same : x = k
  · rw [Ordered.below_of_lt (by rwa [same])]
  · rw [Ordered.below, singleton, if_neg same, ite_self]

theorem above_singleton (less : j < k) (v : W) :
    Ordered.above j (singleton k v) = singleton k v := by
  funext x
  by_cases same : x = k
  · rw [Ordered.above_of_lt (by rwa [same])]
  · rw [Ordered.above, singleton, if_neg same, ite_self]

theorem below_singleton_of_le (order : j ≤ k) (v : W) :
    Ordered.below j (singleton k v) = fun _ => none := by
  funext x
  rw [Ordered.below]
  split
  next less => exact if_neg (less.trans_le order).ne
  next => rfl

theorem above_singleton_of_le (order : k ≤ j) (v : W) :
    Ordered.above j (singleton k v) = fun _ => none := by
  funext x
  rw [Ordered.above]
  split
  next less => exact if_neg (order.trans_lt less).ne'
  next => rfl

end Singleton

end Values

section IsMap

open Ordered

variable [LinearOrder K]

/-- A tree that a map is stored in: its fields are right, it is balanced, and it
has the entries of the map by ascending keys. -/
structure IsMap (U : Finset K) (t : Tree K V A) (f : K → Option V) : Prop where
  cached : t.Cached
  balanced : t.checkBalance = true
  represents : Represents t.entries f
  within : ∀ k v, f k = some v → k ∈ U

variable {U : Finset K} {f : K → Option V}

theorem isMap_null : IsMap U (null : Tree K V A) fun _ => none :=
  ⟨trivial, rfl, Represents.nil, nofun⟩

theorem IsMap.eq_none (empty : IsMap U (null : Tree K V A) f) : f = fun _ => none :=
  empty.represents.eq_none

/-- Ascending keys in a finite set are no more than its members. -/
theorem IsMap.weight_le {t : Tree K V A} (map : IsMap U t f) : t.weight ≤ U.card + 1 := by
  have nodup : (t.entries.map Prod.fst).Nodup :=
    (List.pairwise_map.mpr map.represents.ascending).imp fun less => less.ne
  have subset : ∀ k ∈ t.entries.map Prod.fst, k ∈ U := by
    intro k member
    obtain ⟨e, here, rfl⟩ := List.mem_map.mp member
    exact map.within e.1 e.2 (map.represents.of_mem here)
  have fewer : (t.entries.map Prod.fst).toFinset.card ≤ U.card :=
    Finset.card_le_card fun k member => subset k (List.mem_toFinset.mp member)
  rw [List.toFinset_card_of_nodup nodup, List.length_map] at fewer
  rw [map.cached.weight_eq]
  omega

theorem IsMap.node {lc rc : Tree K V A} {e : K × V} {s : Nat} {aug : A}
    (map : IsMap U (node lc e rc s aug) f) :
    IsMap U lc (below e.1 f) ∧ f e.1 = some e.2 ∧ IsMap U rc (above e.1 f) := by
  obtain ⟨left, here, right⟩ := Represents.append_cons_iff.mp map.represents
  obtain ⟨balL, balR⟩ := checkBalance_children map.balanced
  refine ⟨⟨map.cached.2.1, balL, left, fun k v value => ?_⟩, here,
    ⟨map.cached.2.2, balR, right, fun k v value => ?_⟩⟩
  · exact map.within k v (below_eq_some.mp value).2
  · exact map.within k v (above_eq_some.mp value).2

theorem isMap_single {e : K × V} (member : e.1 ∈ U) :
    IsMap U (single e : Tree K V A) (singleton e.1 e.2) := by
  have shape : (single e : Tree K V A).entries = [] ++ e :: [] := rfl
  refine ⟨⟨rfl, trivial, trivial⟩, ?_, ?_, ?_⟩
  · have one : (null : Tree K V A).weight = 1 := rfl
    rw [show (single e : Tree K V A) = update null e null from rfl,
      checkBalance_update (by rw [one]; decide), one]
    exact ⟨⟨by decide, by decide⟩, rfl, rfl⟩
  · rw [shape, Represents.append_cons_iff, below_singleton_of_le le_rfl,
      above_singleton_of_le le_rfl]
    exact ⟨Represents.nil, if_pos rfl, Represents.nil⟩
  · intro k v value
    rw [singleton] at value
    split at value
    next same => rwa [same]
    next => cases value

variable (room : U.card ≤ 2 ^ 32)

include room

theorem IsMap.nodeJoin {t1 t2 : Tree K V A} {e : K × V} (left : IsMap U t1 (below e.1 f))
    (right : IsMap U t2 (above e.1 f)) (here : f e.1 = some e.2)
    (within : ∀ k v, f k = some v → k ∈ U) : IsMap U (nodeJoin t1 t2 e) f := by
  have leftW := left.weight_le
  have rightW := right.weight_le
  have small : t1.weight + t2.weight ≤ 2 ^ 34 := by omega
  refine ⟨left.cached.nodeJoin right.cached e, checkBalance_nodeJoin e left.cached right.cached
    small left.balanced right.balanced, ?_, within⟩
  rw [entries_nodeJoin]
  exact Represents.append_cons_iff.mpr ⟨left.represents, here, right.represents⟩

theorem IsMap.join2 {t1 t2 : Tree K V A} {k : K} (left : IsMap U t1 (below k f))
    (right : IsMap U t2 (above k f)) (absent : f k = none)
    (within : ∀ k v, f k = some v → k ∈ U) : IsMap U (join2 t1 t2) f := by
  have leftW := left.weight_le
  have rightW := right.weight_le
  have small : t1.weight + t2.weight ≤ 2 ^ 34 := by omega
  refine ⟨left.cached.join2 right.cached, checkBalance_join2 left.cached right.cached
    small left.balanced right.balanced, ?_, within⟩
  rw [entries_join2]
  exact left.represents.append absent right.represents

/-- A tree is cut at a key into the map on both sides of it. -/
theorem IsMap.split {t : Tree K V A} (map : IsMap U t f) (k : K) :
    IsMap U (split k t).first (below k f) ∧ (split k t).entry = (f k).map (k, ·) ∧
      IsMap U (split k t).second (above k f) := by
  induction t generalizing f with
  | null =>
    rw [map.eq_none, below_none, above_none]
    exact ⟨isMap_null, rfl, isMap_null⟩
  | node lc e rc s aug ihl ihr =>
    obtain ⟨left, here, right⟩ := map.node
    rw [Tree.split]
    rcases lt_trichotomy e.1 k with less | rfl | more
    · obtain ⟨first, entry, second⟩ := ihr right
      rw [if_pos less]
      rw [above_of_lt less] at entry
      rw [above_above less.le] at second
      refine ⟨IsMap.nodeJoin room ?_ ?_ ?_ ?_, entry, second⟩
      · rwa [below_below less.le]
      · rwa [above_below]
      · rwa [below_of_lt less]
      · exact fun x v value => map.within x v (below_eq_some.mp value).2
    · rw [if_neg (lt_irrefl _), if_neg (lt_irrefl _), here]
      exact ⟨left, rfl, right⟩
    · obtain ⟨first, entry, second⟩ := ihl left
      rw [if_neg more.not_gt, if_pos more]
      rw [below_of_lt more] at entry
      rw [below_below more.le] at first
      refine ⟨first, entry, IsMap.nodeJoin room ?_ ?_ ?_ ?_⟩
      · rwa [← above_below]
      · rwa [above_above more.le]
      · rwa [above_of_lt more]
      · exact fun x v value => map.within x v (above_eq_some.mp value).2

theorem IsMap.uniont (op : V → V → V) {b1 b2 : Tree K V A} {g : K → Option V}
    (first : IsMap U b1 f) (second : IsMap U b2 g) :
    IsMap U (uniont op b1 b2) fun k => unionValue op (f k) (g k) := by
  induction b2 generalizing b1 f g with
  | null =>
    obtain rfl := second.eq_none
    simp only [Tree.uniont, unionValue_none]
    exact first
  | node l2 e r2 s aug ihl ihr =>
    cases b1 with
    | null =>
      obtain rfl := first.eq_none
      exact second
    | node l1 e1 r1 s1 aug1 =>
      obtain ⟨left, here, right⟩ := second.node
      obtain ⟨below', entry, above'⟩ := first.split room e.1
      have low := ihl below' left
      have high := ihr above' right
      rw [below_pointwise (fun _ => unionValue op) fun _ => rfl] at low
      rw [above_pointwise (fun _ => unionValue op) fun _ => rfl] at high
      have within : ∀ k v, unionValue op (f k) (g k) = some v → k ∈ U := by
        intro k v value
        cases left : f k with
        | some a => exact first.within k a left
        | none =>
          rw [left] at value
          exact second.within k v value
      have join := fun value (same : unionValue op (f e.1) (g e.1) = some value) =>
        IsMap.nodeJoin (e := (e.1, value)) (f := fun k => unionValue op (f k) (g k)) room low high
          same within
      rw [Tree.uniont]
      simp only [entry]
      cases value : f e.1 with
      | none => exact join e.2 (by rw [value, here]; rfl)
      | some v => exact join (op v e.2) (by rw [value, here]; rfl)

theorem IsMap.intersect (op : V → V → V) {b1 b2 : Tree K V A} {g : K → Option V}
    (first : IsMap U b1 f) (second : IsMap U b2 g) :
    IsMap U (intersect op b1 b2) fun k => intersectValue op (f k) (g k) := by
  induction b2 generalizing b1 f g with
  | null =>
    obtain rfl := second.eq_none
    have none : (fun k => intersectValue op (f k) none) = fun _ => Option.none := by
      funext k
      cases f k with
      | none => rfl
      | some v => rfl
    rw [none]
    exact isMap_null
  | node l2 e r2 s aug ihl ihr =>
    cases b1 with
    | null =>
      obtain rfl := first.eq_none
      exact isMap_null
    | node l1 e1 r1 s1 aug1 =>
      obtain ⟨left, here, right⟩ := second.node
      obtain ⟨below', entry, above'⟩ := first.split room e.1
      have low := ihl below' left
      have high := ihr above' right
      rw [below_pointwise (fun _ => intersectValue op) fun _ => rfl] at low
      rw [above_pointwise (fun _ => intersectValue op) fun _ => rfl] at high
      have within : ∀ k v, intersectValue op (f k) (g k) = some v → k ∈ U := by
        intro k v value
        cases left : f k with
        | some a => exact first.within k a left
        | none =>
          rw [left] at value
          cases value
      rw [Tree.intersect]
      simp only [entry]
      cases value : f e.1 with
      | none =>
        exact IsMap.join2 (f := fun k => intersectValue op (f k) (g k)) room low high
          (by rw [value]; rfl) within
      | some v =>
        exact IsMap.nodeJoin (e := (e.1, op v e.2)) (f := fun k => intersectValue op (f k) (g k))
          room low high (by rw [value, here]; rfl) within

theorem IsMap.difference {b1 b2 : Tree K V A} {g : K → Option V}
    (first : IsMap U b1 f) (second : IsMap U b2 g) :
    IsMap U (difference b1 b2) fun k => differenceValue (f k) (g k) := by
  induction b1 generalizing b2 f g with
  | null =>
    obtain rfl := first.eq_none
    have none : (fun k => differenceValue (Option.none : Option V) (g k)) = fun _ => Option.none := by
      funext k
      cases g k with
      | none => rfl
      | some v => rfl
    rw [none]
    exact isMap_null
  | node l1 e r1 s aug ihl ihr =>
    cases b2 with
    | null =>
      obtain rfl := second.eq_none
      exact first
    | node l2 e2 r2 s2 aug2 =>
      obtain ⟨left, here, right⟩ := first.node
      obtain ⟨below', entry, above'⟩ := second.split room e.1
      have low := ihl left below'
      have high := ihr right above'
      rw [below_pointwise (fun _ => differenceValue) fun _ => rfl] at low
      rw [above_pointwise (fun _ => differenceValue) fun _ => rfl] at high
      have within : ∀ k v, differenceValue (f k) (g k) = some v → k ∈ U := by
        intro k v value
        cases left : f k with
        | some a => exact first.within k a left
        | none =>
          rw [left] at value
          cases other : g k with
          | none =>
            rw [other] at value
            cases value
          | some w =>
            rw [other] at value
            cases value
      rw [Tree.difference]
      simp only [entry]
      cases value : g e.1 with
      | none =>
        exact IsMap.nodeJoin (f := fun k => differenceValue (f k) (g k)) room low high
          (by rw [value, here]; rfl) within
      | some w =>
        exact IsMap.join2 (f := fun k => differenceValue (f k) (g k)) room low high
          (by rw [value]; rfl) within

theorem IsMap.insert (op : V → V → V) {e : K × V} {t : Tree K V A} (map : IsMap U t f)
    (member : e.1 ∈ U) :
    IsMap U (insert e op t) fun k => unionValue op (f k) (singleton e.1 e.2 k) := by
  induction t generalizing f with
  | null =>
    obtain rfl := map.eq_none
    exact isMap_single member
  | node lc o rc s aug ihl ihr =>
    obtain ⟨left, here, right⟩ := map.node
    have within : ∀ k v, unionValue op (f k) (singleton e.1 e.2 k) = some v → k ∈ U := by
      intro k v value
      cases old : f k with
      | some a => exact map.within k a old
      | none =>
        rw [old] at value
        exact (isMap_single (A := A) member).within k v value
    have low := below_pointwise (fun _ => unionValue op) (fun _ => rfl) o.1 f (singleton e.1 e.2)
    have high := above_pointwise (fun _ => unionValue op) (fun _ => rfl) o.1 f (singleton e.1 e.2)
    rw [Tree.insert]
    rcases lt_trichotomy o.1 e.1 with less | same | more
    · rw [below_singleton_of_le less.le] at low
      rw [above_singleton less] at high
      simp only [unionValue_none] at low
      rw [if_pos less]
      refine IsMap.nodeJoin room (low ▸ left) (high ▸ ihr right) ?_ within
      rw [here, singleton, if_neg less.ne]
      rfl
    · rw [below_singleton_of_le same.le] at low
      rw [above_singleton_of_le same.ge] at high
      simp only [unionValue_none] at low high
      rw [if_neg same.not_lt, if_neg same.not_gt]
      refine IsMap.nodeJoin (e := (o.1, op o.2 e.2)) room (low ▸ left) (high ▸ right) ?_ within
      rw [here, singleton, if_pos same]
      rfl
    · rw [below_singleton more] at low
      rw [above_singleton_of_le more.le] at high
      simp only [unionValue_none] at high
      rw [if_neg more.not_gt, if_pos more]
      refine IsMap.nodeJoin room (low ▸ ihl left) (high ▸ right) ?_ within
      rw [here, singleton, if_neg more.ne']
      rfl

theorem IsMap.deletet {k : K} {t : Tree K V A} (map : IsMap U t f) :
    IsMap U (deletet k t) fun x => differenceValue (f x) (singleton k () x) := by
  induction t generalizing f with
  | null =>
    obtain rfl := map.eq_none
    have none : (fun x => differenceValue (Option.none : Option V) (singleton k () x)) =
        fun _ => Option.none := by
      funext x
      rw [singleton]
      split
      · rfl
      · rfl
    rw [none]
    exact isMap_null
  | node lc o rc s aug ihl ihr =>
    obtain ⟨left, here, right⟩ := map.node
    have within : ∀ x v, differenceValue (f x) (singleton k () x) = some v → x ∈ U := by
      intro x v value
      rw [singleton] at value
      split at value
      · cases value
      · exact map.within x v value
    have low := below_pointwise (fun _ => differenceValue) (fun _ => rfl) o.1 f (singleton k ())
    have high := above_pointwise (fun _ => differenceValue) (fun _ => rfl) o.1 f (singleton k ())
    rw [Tree.deletet]
    rcases lt_trichotomy o.1 k with less | same | more
    · rw [below_singleton_of_le less.le] at low
      rw [above_singleton less] at high
      simp only [differenceValue_none] at low
      rw [if_pos less]
      refine IsMap.nodeJoin room (low ▸ left) (high ▸ ihr right) ?_ within
      rw [here, singleton, if_neg less.ne]
      rfl
    · rw [below_singleton_of_le same.le] at low
      rw [above_singleton_of_le same.ge] at high
      simp only [differenceValue_none] at low high
      rw [if_neg same.not_lt, if_neg same.not_gt]
      refine IsMap.join2 (f := fun x => differenceValue (f x) (singleton k () x)) (k := o.1) room
        (low ▸ left) (high ▸ right) ?_ within
      rw [singleton, if_pos same]
      rfl
    · rw [below_singleton more] at low
      rw [above_singleton_of_le more.le] at high
      simp only [differenceValue_none] at high
      rw [if_neg more.not_gt, if_pos more]
      refine IsMap.nodeJoin room (low ▸ ihl left) (high ▸ right) ?_ within
      rw [here, singleton, if_neg more.ne']
      rfl

theorem IsMap.filter (p : K × V → Bool) {t : Tree K V A} (map : IsMap U t f) :
    IsMap U (filter p t) fun k => (f k).filter fun v => p (k, v) := by
  induction t generalizing f with
  | null =>
    obtain rfl := map.eq_none
    exact isMap_null
  | node lc e rc s aug ihl ihr =>
    obtain ⟨left, here, right⟩ := map.node
    have low := ihl left
    have high := ihr right
    rw [below_pointwise (fun k a (_ : Option V) => a.filter fun v => p (k, v)) (fun _ => rfl) e.1 f f]
      at low
    rw [above_pointwise (fun k a (_ : Option V) => a.filter fun v => p (k, v)) (fun _ => rfl) e.1 f f]
      at high
    have within : ∀ k v, ((f k).filter fun v => p (k, v)) = some v → k ∈ U := by
      intro k v value
      exact map.within k v (Option.filter_eq_some_iff.mp value).1
    rw [Tree.filter]
    split
    next keep =>
      refine IsMap.nodeJoin (f := fun k => (f k).filter fun v => p (k, v)) room low high ?_ within
      rw [here, Option.filter_some, if_pos keep]
    next drop =>
      refine IsMap.join2 (f := fun k => (f k).filter fun v => p (k, v)) room low high ?_ within
      rw [here, Option.filter_some, if_neg drop]

theorem isMap_fromArray {l : List (K × V)} {g : K → Option V} (represents : Represents l g)
    (within : ∀ k v, g k = some v → k ∈ U) : IsMap U (fromArray l : Tree K V A) g := by
  induction l using fromArray.induct (K := K) (V := V) generalizing g with
  | case1 =>
    rw [represents.eq_none, fromArray]
    exact isMap_null
  | case2 e =>
    have value := represents.of_mem (List.mem_singleton_self e)
    have single := isMap_single (A := A) (within e.1 e.2 value)
    have same : g = singleton e.1 e.2 := by
      funext k
      cases found : g k with
      | none =>
        rw [singleton, if_neg]
        rintro rfl
        rw [found] at value
        cases value
      | some v =>
        obtain rfl := List.mem_singleton.mp ((represents.mem_iff k v).mpr found)
        exact (if_pos rfl).symm
    rw [same, fromArray]
    exact single
  | case3 a b l mid =>
    rename_i none
    have := congrArg List.length none
    simp only [mid, List.length_drop, List.length_cons, List.length_nil] at this
    omega
  | case4 a b l mid m rest cut ihl =>
    rename_i ihr
    have whole : a :: b :: l = (a :: b :: l).take mid ++ m :: rest := by
      rw [← cut, List.take_append_drop]
    rw [whole, Represents.append_cons_iff] at represents
    obtain ⟨left, here, right⟩ := represents
    have low := ihl left fun k v value => within k v (below_eq_some.mp value).2
    have high := ihr right fun k v value => within k v (above_eq_some.mp value).2
    rw [fromArray_eq cut]
    exact IsMap.nodeJoin room low high here within

/-- A batch of entries by ascending keys is merged into the map. -/
theorem IsMap.multiInsertSortedWithValues (op : K → V → V → V) {l : List (K × V)}
    {g : K → Option V} {t : Tree K V A} (map : IsMap U t f) (represents : Represents l g)
    (member : ∀ k v, g k = some v → k ∈ U) :
    IsMap U (multiInsertSortedWithValues op l t) fun k => unionValue (op k) (f k) (g k) := by
  induction t generalizing l f g with
  | null =>
    obtain rfl := map.eq_none
    exact isMap_fromArray room represents member
  | node lc e rc s aug ihl ihr =>
    cases l with
    | nil =>
      obtain rfl := represents.eq_none
      simp only [Tree.multiInsertSortedWithValues, unionValue_none]
      exact map
    | cons a l =>
      obtain ⟨left, here, right⟩ := map.node
      obtain ⟨low, high, whole, lowR, highR⟩ := represents.cut e.1
      have joinL := ihl left lowR fun k v value => member k v (below_eq_some.mp value).2
      have joinR := ihr right highR fun k v value => member k v (above_eq_some.mp value).2
      rw [below_pointwise (fun k => unionValue (op k)) fun _ => rfl] at joinL
      rw [above_pointwise (fun k => unionValue (op k)) fun _ => rfl] at joinR
      have within : ∀ k v, unionValue (op k) (f k) (g k) = some v → k ∈ U := by
        intro k v value
        cases old : f k with
        | some a => exact map.within k a old
        | none =>
          rw [old] at value
          exact member k v value
      have first : ∀ x ∈ low, decide (x.1 < e.1) = true := fun x member =>
        decide_eq_true (below_eq_some.mp (lowR.of_mem member)).1
      have last : ∀ x ∈ high, e.1 < x.1 := fun x member =>
        (above_eq_some.mp (highR.of_mem member)).1
      have mid : binarySearch (fun a => decide (a.1 < e.1)) (a :: l) = low.length := by
        rw [whole, List.append_assoc]
        apply binarySearch_append first
        intro x member
        rcases List.mem_append.mp member with member | member
        · obtain ⟨v, -, rfl⟩ := Option.map_eq_some_iff.mp (Option.mem_toList.mp member)
          exact decide_eq_false (lt_irrefl _)
        · exact decide_eq_false (last x member).not_gt
      rw [Tree.multiInsertSortedWithValues]
      · simp only [mid]
        cases value : g e.1 with
        | none =>
          rw [value, Option.map_none, Option.toList_none, List.append_nil] at whole
          have later : high.head?.filter (fun a => !decide (e.1 < a.1)) = none := by
            cases high with
            | nil => rfl
            | cons x high => simp [last x (List.mem_cons_self ..)]
          simp only [whole, List.drop_left, List.take_left, later]
          exact IsMap.nodeJoin (f := fun k => unionValue (op k) (f k) (g k)) room joinL joinR
            (by rw [here, value]; rfl) within
        | some w =>
          rw [value, Option.map_some, Option.toList_some, List.append_assoc,
            List.singleton_append] at whole
          have rest : (low ++ (e.1, w) :: high).drop (low.length + 1) = high := by
            rw [List.drop_append, List.drop_of_length_le (Nat.le_succ _), Nat.add_sub_cancel_left]
            rfl
          simp only [whole, List.drop_left, List.take_left, List.head?_cons, Option.filter_some,
            lt_irrefl, decide_false, Bool.not_false, if_true, rest]
          exact IsMap.nodeJoin (e := (e.1, op e.1 e.2 w))
            (f := fun k => unionValue (op k) (f k) (g k)) room joinL joinR
            (by rw [here, value]; rfl) within
      · exact nofun

end IsMap

end Tree

end Zeppelin.Aspen
