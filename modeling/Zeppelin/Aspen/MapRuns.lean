import Zeppelin.Aspen.TreePlus

/-! What programs over the map library compute. The operations that work on whole
trees agree with the operations on one key, and a program over several maps keeps
every tree balanced and in step with the maps that it stands for. -/
namespace Zeppelin.Aspen.Tree

open Ordered

variable {K V A : Type} [AugEntry K V A] [LinearOrder K] {U : Finset K}

/-- A tree of the library: right fields, balanced, ascending keys of `U`. -/
structure Valid (U : Finset K) (t : Tree K V A) : Prop where
  cached : t.Cached
  balanced : t.checkBalance = true
  ordered : t.entries.Pairwise fun a b => a.1 < b.1
  within : ∀ e ∈ t.entries, e.1 ∈ U

/-- The value that `find` returns. -/
def value (t : Tree K V A) (k : K) : Option V := (t.find k).map Prod.snd

theorem represents_find? {l : List (K × V)} (ordered : l.Pairwise fun a b => a.1 < b.1) :
    Represents l fun k => (l.find? fun e => e.1 = k).map Prod.snd := by
  refine ⟨ordered, fun k v => ?_⟩
  induction l with
  | nil => exact ⟨nofun, nofun⟩
  | cons e l ih =>
    have less := fun x (member : x ∈ l) => List.rel_of_pairwise_cons ordered member
    rw [List.mem_cons, ih ordered.of_cons]
    by_cases same : e.1 = k
    · rw [List.find?_cons_of_pos (by simpa using same), Option.map_some, Option.some.injEq]
      constructor
      · rintro (rfl | later)
        · rfl
        · rw [← ih ordered.of_cons] at later
          exact absurd same (less _ later).ne
      · rintro rfl
        exact .inl (Prod.ext same.symm rfl)
    · rw [List.find?_cons_of_neg (by simpa using same)]
      constructor
      · rintro (rfl | later)
        · exact absurd rfl same
        · exact later
      · exact .inr

theorem Valid.isMap {t : Tree K V A} (valid : Valid U t) : IsMap U t t.value := by
  have represents : Represents t.entries t.value := by
    have same : t.value = fun k => (t.entries.find? fun e => e.1 = k).map Prod.snd := by
      funext k
      rw [value, find_eq valid.ordered]
    rw [same]
    exact represents_find? valid.ordered
  exact ⟨valid.cached, valid.balanced, represents, fun k v found =>
    valid.within _ ((represents.mem_iff k v).mpr found)⟩

theorem IsMap.valid {t : Tree K V A} {f : K → Option V} (map : IsMap U t f) : Valid U t :=
  ⟨map.cached, map.balanced, map.represents.ascending, fun e member =>
    map.within e.1 e.2 (map.represents.of_mem member)⟩

theorem IsMap.value_eq {t : Tree K V A} {f : K → Option V} (map : IsMap U t f) : t.value = f := by
  funext k
  apply Option.ext
  intro v
  rw [← map.represents.mem_iff, map.valid.isMap.represents.mem_iff]

theorem IsMap.entries_eq {s t : Tree K V A} {f : K → Option V} (left : IsMap U s f)
    (right : IsMap U t f) : s.entries = t.entries := left.represents.unique right.represents

/-- Two chunks of neighbours. -/
def twoChunks (a b : Nat) : EdgeList := (single (a, [a + 1])).insert (b, []) fun _ c => c

theorem valid_twoChunks {a b : Nat} (first : a < 8) (second : b < 8) :
    Valid (Finset.range 8) (twoChunks a b) := by
  have room : (Finset.range 8).card ≤ 2 ^ 32 := by decide
  have one := isMap_single (A := Nat) (e := (a, [a + 1])) (Finset.mem_range.mpr first)
  exact (one.insert room _ (Finset.mem_range.mpr second)).valid

section OneByOne

variable (room : U.card ≤ 2 ^ 32) {t b1 b2 : Tree K V A}

include room

/-- A batch one entry at a time. -/
theorem IsMap.inserts (op : K → V → V → V) {l : List (K × V)} {f g : K → Option V}
    (map : IsMap U t f) (represents : Represents l g) (member : ∀ k v, g k = some v → k ∈ U) :
    IsMap U (l.foldl (fun t e => Tree.insert e (op e.1) t) t) fun k => unionValue (op k) (f k) (g k) := by
  induction l generalizing t f g with
  | nil =>
    obtain rfl := represents.eq_none
    simp only [unionValue_none]
    exact map
  | cons e l ih =>
    obtain ⟨none, here, rest⟩ := (Represents.append_cons_iff (l := [])).mp represents
    have inserted := map.insert room (op e.1) (member e.1 e.2 here)
    have whole := ih inserted rest fun k v found => member k v (above_eq_some.mp found).2
    have same : (fun k => unionValue (op k) (unionValue (op e.1) (f k) (singleton e.1 e.2 k))
        (above e.1 g k)) = fun k => unionValue (op k) (f k) (g k) := by
      funext k
      rcases lt_trichotomy k e.1 with less | rfl | more
      · have absent : g k = .none := by rw [← below_of_lt (f := g) less, none.eq_none]
        rw [absent, above, if_neg less.not_gt, singleton, if_neg less.ne, unionValue_none,
          unionValue_none, unionValue_none]
      · rw [above, if_neg (lt_irrefl _), unionValue_none, singleton, if_pos rfl, here]
      · rw [above_of_lt more, singleton, if_neg more.ne', unionValue_none]
    rw [same] at whole
    exact whole

/-- Keys one at a time. -/
theorem IsMap.deletes {W : Type} {l : List (K × W)} {f : K → Option V} {g : K → Option W}
    (map : IsMap U t f) (represents : Represents l g) :
    IsMap U (l.foldl (fun t e => Tree.deletet e.1 t) t) fun k => differenceValue (f k) (g k) := by
  induction l generalizing t f g with
  | nil =>
    obtain rfl := represents.eq_none
    simp only [differenceValue_none]
    exact map
  | cons e l ih =>
    obtain ⟨none, here, rest⟩ := (Represents.append_cons_iff (l := [])).mp represents
    have whole := ih (map.deletet room (k := e.1)) rest
    have same : (fun k => differenceValue (differenceValue (f k) (singleton e.1 () k))
        (above e.1 g k)) = fun k => differenceValue (f k) (g k) := by
      funext k
      rcases lt_trichotomy k e.1 with less | rfl | more
      · have absent : g k = .none := by rw [← below_of_lt (f := g) less, none.eq_none]
        rw [absent, above, if_neg less.not_gt, singleton, if_neg less.ne, differenceValue_none,
          differenceValue_none, differenceValue_none]
      · rw [above, if_neg (lt_irrefl _), differenceValue_none, singleton, if_pos rfl, here]
        rfl
      · rw [above_of_lt more, singleton, if_neg more.ne', differenceValue_none]
    rw [same] at whole
    exact whole

omit room in
/-- The batch operation on a tree inserts what single insertions would, while a
32-bit size counts the entries. -/
theorem entries_multiInsert_eq_inserts (small : U.card < 2 ^ 32) (op : K → V → V → V)
    {l : List (K × V)} (valid : Valid U t) (ordered : l.Pairwise fun a b => a.1 < b.1) (within : ∀ e ∈ l, e.1 ∈ U) :
    Valid U (multiInsertSortedWithValues op l t) ∧
      (multiInsertSortedWithValues op l t).entries =
        (l.foldl (fun t e => insert e (op e.1) t) t).entries := by
  have represents := represents_find? ordered
  have member : ∀ k v, (l.find? fun e => e.1 = k).map Prod.snd = some v → k ∈ U :=
    fun k v found => within _ ((represents.mem_iff k v).mpr found)
  have batch := valid.isMap.multiInsertSortedWithValues small.le op represents member
  exact ⟨batch.valid, batch.entries_eq (valid.isMap.inserts small.le op represents member)⟩

omit [LinearOrder K] room in
theorem entries_multiInsert_eq_inserts_chunks :
    Valid (Finset.range 8)
        (multiInsertSortedWithValues (fun _ _ b => b) [(2, [3]), (4, [5])] (twoChunks 1 4)) ∧
      (multiInsertSortedWithValues (fun _ _ b => b) [(2, [3]), (4, [5])] (twoChunks 1 4)).entries =
        ([(2, [3]), (4, [5])].foldl (fun t e => insert e (fun _ b => b) t) (twoChunks 1 4)).entries :=
  entries_multiInsert_eq_inserts (by decide) (fun _ _ b => b) (valid_twoChunks (by decide) (by decide))
    (by decide) (by decide)

omit room in
/-- The union has what inserting the entries of the second tree would give, while a
32-bit size counts the entries. -/
theorem entries_uniont_eq_inserts (small : U.card < 2 ^ 32) (op : V → V → V)
    (first : Valid U b1) (second : Valid U b2) :
    Valid U (uniont op b1 b2) ∧
      (uniont op b1 b2).entries = (b2.entries.foldl (fun t e => insert e op t) b1).entries := by
  have union := first.isMap.uniont small.le op second.isMap
  exact ⟨union.valid, union.entries_eq (first.isMap.inserts small.le (fun _ => op)
    second.isMap.represents second.isMap.within)⟩

omit [LinearOrder K] room in
theorem entries_uniont_eq_inserts_chunks :
    Valid (Finset.range 8) (uniont (· ++ ·) (twoChunks 1 4) (twoChunks 4 6)) ∧
      (uniont (· ++ ·) (twoChunks 1 4) (twoChunks 4 6)).entries =
        ((twoChunks 4 6).entries.foldl (fun t e => insert e (· ++ ·) t) (twoChunks 1 4)).entries :=
  entries_uniont_eq_inserts (by decide) (· ++ ·) (valid_twoChunks (by decide) (by decide))
    (valid_twoChunks (by decide) (by decide))

/-- The difference has what deleting the keys of the second tree would leave. -/
theorem entries_difference_eq_deletes (first : Valid U b1) (second : Valid U b2) :
    Valid U (difference b1 b2) ∧
      (difference b1 b2).entries = (b2.entries.foldl (fun t e => deletet e.1 t) b1).entries := by
  have difference := first.isMap.difference room second.isMap
  exact ⟨difference.valid,
    difference.entries_eq (first.isMap.deletes room second.isMap.represents)⟩

omit [LinearOrder K] room in
theorem entries_difference_eq_deletes_chunks :
    Valid (Finset.range 8) (difference (twoChunks 1 4) (twoChunks 4 6)) ∧
      (difference (twoChunks 1 4) (twoChunks 4 6)).entries =
        ((twoChunks 4 6).entries.foldl (fun t e => deletet e.1 t) (twoChunks 1 4)).entries :=
  entries_difference_eq_deletes (by decide) (valid_twoChunks (by decide) (by decide))
    (valid_twoChunks (by decide) (by decide))

/-- The intersection has what a filter of the first tree by lookups in the second
keeps. -/
theorem entries_intersect_eq_filter (first : Valid U b1) (second : Valid U b2) :
    Valid U (intersect (fun a _ => a) b1 b2) ∧
      (intersect (fun a _ => a) b1 b2).entries =
        (b1.filter fun e => (b2.find e.1).isSome).entries := by
  have intersect := first.isMap.intersect room (fun a _ => a) second.isMap
  have filtered := first.isMap.filter room fun e => (b2.find e.1).isSome
  have same : (fun k => (b1.value k).filter fun _ => (b2.find k).isSome) =
      fun k => intersectValue (fun a _ => a) (b1.value k) (b2.value k) := by
    funext k
    rw [value, value]
    cases b1.find k with
    | none => rfl
    | some a =>
      cases b2.find k with
      | none => rfl
      | some b => rfl
  simp only [same] at filtered
  exact ⟨intersect.valid, intersect.entries_eq filtered⟩

omit [LinearOrder K] room in
theorem entries_intersect_eq_filter_chunks :
    Valid (Finset.range 8) (intersect (fun a _ => a) (twoChunks 1 4) (twoChunks 4 6)) ∧
      (intersect (fun a _ => a) (twoChunks 1 4) (twoChunks 4 6)).entries =
        ((twoChunks 1 4).filter fun e => ((twoChunks 4 6).find e.1).isSome).entries :=
  entries_intersect_eq_filter (by decide) (valid_twoChunks (by decide) (by decide))
    (valid_twoChunks (by decide) (by decide))

end OneByOne

section Positions

/-- In ascending order, as many keys are smaller as there are entries before. -/
theorem length_filter_lt {l r : List (K × V)} {e : K × V}
    (ordered : (l ++ e :: r).Pairwise fun a b => a.1 < b.1) :
    ((l ++ e :: r).filter fun x => x.1 < e.1).length = l.length := by
  obtain ⟨-, later, across⟩ := List.pairwise_append.mp ordered
  have front : l.filter (fun x => x.1 < e.1) = l :=
    List.filter_eq_self.mpr fun x member => by simpa using across x member e (List.mem_cons_self ..)
  have back : (e :: r).filter (fun x => x.1 < e.1) = [] := by
    refine List.filter_eq_nil_iff.mpr fun x member => ?_
    rcases List.mem_cons.mp member with rfl | member
    · simp
    · simpa using (List.rel_of_pairwise_cons later member).le
  rw [List.filter_append, front, back, List.append_nil]

/-- The position of a key and the entry at a position undo each other. -/
theorem select_eq_some_iff_rank {t : Tree K V A} (valid : Valid U t) (e : K × V) (i : Nat) :
    t.select i = some e ↔ e ∈ t.entries ∧ t.rank e.1 = i := by
  rw [valid.cached.select_eq, rank_eq valid.cached valid.ordered]
  have ordered := valid.ordered
  constructor
  · intro found
    obtain ⟨inside, rfl⟩ := List.getElem?_eq_some_iff.mp found
    refine ⟨List.getElem_mem inside, ?_⟩
    have parts := List.take_append_drop i t.entries
    rw [List.drop_eq_getElem_cons inside] at parts
    have count := length_filter_lt (parts.symm ▸ ordered)
    rwa [parts, List.length_take, min_eq_left inside.le] at count
  · rintro ⟨member, rfl⟩
    obtain ⟨l, r, parts⟩ := List.append_of_mem member
    rw [parts] at ordered ⊢
    rw [length_filter_lt ordered, List.getElem?_append_right le_rfl, Nat.sub_self,
      List.getElem?_cons_zero]

theorem select_eq_some_iff_rank_chunks : (twoChunks 1 4).select 1 = some (4, []) ↔
    (4, []) ∈ (twoChunks 1 4).entries ∧ (twoChunks 1 4).rank 4 = 1 :=
  select_eq_some_iff_rank (valid_twoChunks (by decide) (by decide)) (4, []) 1

end Positions

section Depth

def depth : Tree K V A → Nat
  | null => 0
  | node lc _ rc _ _ => max lc.depth rc.depth + 1

/-- One level of the bound, for the deeper child. -/
theorem pow_depth_succ {d child whole : Nat} (deeper : 100 ^ d ≤ 71 ^ d * child)
    (part : 100 * child ≤ 71 * whole) : 100 ^ (d + 1) ≤ 71 ^ (d + 1) * whole := by
  calc
    100 ^ (d + 1) = 100 * 100 ^ d := Nat.pow_succ'
    _ ≤ 100 * (71 ^ d * child) := Nat.mul_le_mul_left 100 deeper
    _ = 71 ^ d * (100 * child) := Nat.mul_left_comm ..
    _ ≤ 71 ^ d * (71 * whole) := Nat.mul_le_mul_left (71 ^ d) part
    _ = 71 ^ (d + 1) * whole := by rw [Nat.pow_succ, Nat.mul_assoc]

theorem IsMap.pow_depth_le (room : U.card ≤ 2 ^ 32) {t : Tree K V A} {f : K → Option V}
    (map : IsMap U t f) : 100 ^ t.depth ≤ 71 ^ t.depth * t.weight := by
  induction t generalizing f with
  | null => exact le_rfl
  | node lc e rc s aug ihl ihr =>
    obtain ⟨left, -, right⟩ := map.node
    have leftW := left.weight_le
    have rightW := right.weight_le
    have balanced := (checkBalance_node (by omega) (by omega)).mp map.balanced
    have whole := map.cached.weight_node
    rw [depth]
    rcases le_total lc.depth rc.depth with deeper | deeper
    · rw [max_eq_right deeper]
      exact pow_depth_succ (ihr right) (by omega)
    · rw [max_eq_left deeper]
      exact pow_depth_succ (ihl left) (by omega)

/-- The depth is logarithmic in the number of entries, with the base `100 / 71`. -/
theorem depth_logarithmic (room : U.card ≤ 2 ^ 32) {t : Tree K V A} (valid : Valid U t) :
    100 ^ t.depth ≤ 71 ^ t.depth * (t.entries.length + 1) := by
  rw [← valid.cached.weight_eq]
  exact valid.isMap.pow_depth_le room

theorem depth_logarithmic_chunks : 100 ^ (twoChunks 1 4).depth ≤
    71 ^ (twoChunks 1 4).depth * ((twoChunks 1 4).entries.length + 1) :=
  depth_logarithmic (by decide) (valid_twoChunks (by decide) (by decide))

end Depth

section Programs

variable {ι : Type} [DecidableEq ι]

/-- The operations of the library on named maps. -/
inductive Command (ι K V : Type) where
  | insert (dst : ι) (e : K × V) (f : V → V → V)
  | deletet (dst : ι) (k : K)
  | filter (dst : ι) (p : K × V → Bool)
  | uniont (dst b1 b2 : ι) (op : V → V → V)
  | intersect (dst b1 b2 : ι) (op : V → V → V)
  | difference (dst b1 b2 : ι)
  | split (first second src : ι) (k : K)
  | multiInsertSorted (dst : ι) (op : K → V → V → V) (l : List (K × V))

namespace Command

/-- The command on trees. -/
def execute (s : ι → Tree K V A) : Command ι K V → ι → Tree K V A
  | insert dst e f => Function.update s dst ((s dst).insert e f)
  | deletet dst k => Function.update s dst ((s dst).deletet k)
  | filter dst p => Function.update s dst ((s dst).filter p)
  | uniont dst b1 b2 op => Function.update s dst ((s b1).uniont op (s b2))
  | intersect dst b1 b2 op => Function.update s dst ((s b1).intersect op (s b2))
  | difference dst b1 b2 => Function.update s dst ((s b1).difference (s b2))
  | split first second src k =>
    Function.update (Function.update s first ((s src).split k).first) second ((s src).split k).second
  | multiInsertSorted dst op l =>
    Function.update s dst ((s dst).multiInsertSortedWithValues op l)

/-- The command on the maps that the trees stand for. -/
def denote (m : ι → K → Option V) : Command ι K V → ι → K → Option V
  | insert dst e f => Function.update m dst fun k =>
      if k = e.1 then some (((m dst k).map (f · e.2)).getD e.2) else m dst k
  | deletet dst k => Function.update m dst fun x => if x = k then none else m dst x
  | filter dst p => Function.update m dst fun k => (m dst k).filter fun v => p (k, v)
  | uniont dst b1 b2 op => Function.update m dst fun k => unionValue op (m b1 k) (m b2 k)
  | intersect dst b1 b2 op => Function.update m dst fun k => intersectValue op (m b1 k) (m b2 k)
  | difference dst b1 b2 => Function.update m dst fun k => differenceValue (m b1 k) (m b2 k)
  | split first second src k =>
    Function.update (Function.update m first fun x => if x < k then m src x else none) second
      fun x => if k < x then m src x else none
  | multiInsertSorted dst op l => Function.update m dst fun k =>
      unionValue (op k) (m dst k) ((l.find? fun e => e.1 = k).map Prod.snd)

/-- New keys are in `U`, and a batch has ascending keys. -/
def Admissible (U : Finset K) : Command ι K V → Prop
  | insert _ e _ => e.1 ∈ U
  | multiInsertSorted _ _ l => (l.Pairwise fun a b => a.1 < b.1) ∧ ∀ e ∈ l, e.1 ∈ U
  | _ => True

end Command

theorem forall_isMap_update {s : ι → Tree K V A} {m : ι → K → Option V}
    (maps : ∀ i, IsMap U (s i) (m i)) {dst : ι} {t : Tree K V A} {f : K → Option V}
    (map : IsMap U t f) (i : ι) : IsMap U (Function.update s dst t i) (Function.update m dst f i) := by
  by_cases same : i = dst
  · subst same
    simpa only [Function.update_self] using map
  · simpa only [Function.update_of_ne same] using maps i

theorem unionValue_singleton (op : V → V → V) (f : K → Option V) (e : K × V) (k : K) :
    unionValue op (f k) (singleton e.1 e.2 k) =
      if k = e.1 then some (((f k).map (op · e.2)).getD e.2) else f k := by
  rw [singleton]
  split
  · cases f k with
    | none => rfl
    | some v => rfl
  · exact unionValue_none op (f k)

theorem differenceValue_singleton (f : K → Option V) (k x : K) :
    differenceValue (f x) (singleton k () x) = if x = k then none else f x := by
  rw [singleton]
  split
  · cases f x with
    | none => rfl
    | some v => rfl
  · exact differenceValue_none (f x)

variable (room : U.card ≤ 2 ^ 32)

include room

/-- One command keeps the trees in step with their maps. -/
theorem isMap_execute {s : ι → Tree K V A} {m : ι → K → Option V}
    (maps : ∀ i, IsMap U (s i) (m i)) {c : Command ι K V} (admissible : c.Admissible U) (i : ι) :
    IsMap U (c.execute s i) (c.denote m i) := by
  cases c with
  | insert dst e f =>
    have map := (maps dst).insert room f admissible
    simp only [unionValue_singleton] at map
    exact forall_isMap_update maps map i
  | deletet dst k =>
    have map := (maps dst).deletet room (k := k)
    simp only [differenceValue_singleton] at map
    exact forall_isMap_update maps map i
  | filter dst p => exact forall_isMap_update maps ((maps dst).filter room p) i
  | uniont dst b1 b2 op => exact forall_isMap_update maps ((maps b1).uniont room op (maps b2)) i
  | intersect dst b1 b2 op => exact forall_isMap_update maps ((maps b1).intersect room op (maps b2)) i
  | difference dst b1 b2 => exact forall_isMap_update maps ((maps b1).difference room (maps b2)) i
  | split first second src k =>
    obtain ⟨low, -, high⟩ := (maps src).split room k
    exact forall_isMap_update (forall_isMap_update maps low) high i
  | multiInsertSorted dst op l =>
    have represents := represents_find? admissible.1
    refine forall_isMap_update maps ((maps dst).multiInsertSortedWithValues room op represents ?_) i
    exact fun k v found => admissible.2 _ ((represents.mem_iff k v).mpr found)

omit room in
/-- A program over empty maps whose entries a 32-bit size counts: every tree is valid
afterwards, and a lookup finds what the maps have. -/
theorem program_refines_maps (small : U.card < 2 ^ 32) {commands : List (Command ι K V)}
    (admissible : ∀ c ∈ commands, c.Admissible U) (i : ι) :
    Valid U (commands.foldl Command.execute (fun _ => (null : Tree K V A)) i) ∧
      ∀ k, (commands.foldl Command.execute (fun _ => (null : Tree K V A)) i).value k =
        commands.foldl Command.denote (fun _ _ => none) i k := by
  have run : ∀ {s : ι → Tree K V A} {m : ι → K → Option V}, (∀ i, IsMap U (s i) (m i)) →
      ∀ i, IsMap U (commands.foldl Command.execute s i) (commands.foldl Command.denote m i) := by
    induction commands with
    | nil => exact fun maps => maps
    | cons c commands ih =>
      intro s m maps
      obtain ⟨first, rest⟩ := List.forall_mem_cons.mp admissible
      exact ih rest (isMap_execute small.le maps first)
  have map := run (fun _ => isMap_null) i
  exact ⟨map.valid, fun k => congrFun map.value_eq k⟩

/-- A batch goes into a map that is cut, and one part loses what is in the other. -/
def cutAndMerge : List (Command Nat Nat (List Nat)) :=
  [.insert 0 (1, [2]) fun _ b => b, .multiInsertSorted 0 (fun _ a b => a ++ b) [(1, [3]), (5, [6])],
    .split 1 2 0 4, .uniont 0 1 0 (· ++ ·), .difference 0 0 2, .deletet 1 1]

omit [LinearOrder K] room in
theorem program_refines_maps_cut :
    Valid (Finset.range 8) (cutAndMerge.foldl Command.execute (fun _ => (null : EdgeList)) 0) ∧
      ∀ k, (cutAndMerge.foldl Command.execute (fun _ => (null : EdgeList)) 0).value k =
        cutAndMerge.foldl Command.denote (fun _ _ => none) 0 k :=
  program_refines_maps (by decide) (by simp [cutAndMerge, Command.Admissible]; omega) 0

end Programs

end Zeppelin.Aspen.Tree
