import Mathlib.Data.List.Sort
import Mathlib.Order.Basic

/-! Partial maps on ordered keys and the ascending lists that represent them. A
map is cut at a key into what is below and above it; an algorithm that works on
both sides of a key is followed by cutting the maps. -/
namespace Zeppelin.Ordered

variable {K V : Type} [LinearOrder K]

/-- The map on the keys below a key. -/
def below (k : K) (f : K → Option V) (x : K) : Option V := if x < k then f x else none

/-- The map on the keys above a key. -/
def above (k : K) (f : K → Option V) (x : K) : Option V := if k < x then f x else none

theorem below_of_lt {k x : K} {f : K → Option V} (less : x < k) : below k f x = f x := if_pos less

theorem above_of_lt {k x : K} {f : K → Option V} (less : k < x) : above k f x = f x := if_pos less

theorem below_eq_some {k x : K} {v : V} {f : K → Option V} :
    below k f x = some v ↔ x < k ∧ f x = some v := by
  rw [below]
  split
  next less => exact ⟨fun h => ⟨less, h⟩, And.right⟩
  next other => exact ⟨nofun, fun h => absurd h.1 other⟩

theorem above_eq_some {k x : K} {v : V} {f : K → Option V} :
    above k f x = some v ↔ k < x ∧ f x = some v := by
  rw [above]
  split
  next less => exact ⟨fun h => ⟨less, h⟩, And.right⟩
  next other => exact ⟨nofun, fun h => absurd h.1 other⟩

theorem below_none (k : K) : below k (fun _ : K => (none : Option V)) = fun _ => none := by
  funext x
  rw [below, ite_self]

theorem above_none (k : K) : above k (fun _ : K => (none : Option V)) = fun _ => none := by
  funext x
  rw [above, ite_self]

theorem below_below {j k : K} (order : j ≤ k) (f : K → Option V) :
    below j (below k f) = below j f := by
  funext x
  by_cases less : x < j
  · rw [below_of_lt less, below_of_lt (less.trans_le order), below_of_lt less]
  · rw [below, if_neg less, below, if_neg less]

theorem above_above {j k : K} (order : j ≤ k) (f : K → Option V) :
    above k (above j f) = above k f := by
  funext x
  by_cases less : k < x
  · rw [above_of_lt less, above_of_lt (order.trans_lt less), above_of_lt less]
  · rw [above, if_neg less, above, if_neg less]

theorem above_below (j k : K) (f : K → Option V) : above j (below k f) = below k (above j f) := by
  funext x
  simp only [above, below]
  split
  · rfl
  · rw [ite_self]

/-- Pointwise operations that keep what is undefined can be done on each side. -/
theorem below_pointwise {W U : Type} (op : K → Option V → Option W → Option U)
    (strict : ∀ k, op k none none = none) (k : K) (f : K → Option V) (g : K → Option W) :
    (fun x => op x (below k f x) (below k g x)) = below k fun x => op x (f x) (g x) := by
  funext x
  simp only [below]
  split
  · rfl
  · exact strict x

theorem above_pointwise {W U : Type} (op : K → Option V → Option W → Option U)
    (strict : ∀ k, op k none none = none) (k : K) (f : K → Option V) (g : K → Option W) :
    (fun x => op x (above k f x) (above k g x)) = above k fun x => op x (f x) (g x) := by
  funext x
  simp only [above]
  split
  · rfl
  · exact strict x

theorem below_eq_self {k : K} {f : K → Option V} (all : ∀ x v, f x = some v → x < k) :
    below k f = f := by
  funext x
  cases value : f x with
  | none => rw [below, value, ite_self]
  | some v => rw [below_of_lt (all x v value), value]

theorem above_eq_self {k : K} {f : K → Option V} (all : ∀ x v, f x = some v → k < x) :
    above k f = f := by
  funext x
  cases value : f x with
  | none => rw [above, value, ite_self]
  | some v => rw [above_of_lt (all x v value), value]

/-- Two maps put together on both sides of a key. -/
def paste (k : K) (f : K → Option V) (v : Option V) (g : K → Option V) (x : K) : Option V :=
  if x < k then f x else if k < x then g x else v

theorem below_paste {k : K} {f g : K → Option V} {v : Option V} :
    below k (paste k f v g) = below k f := by
  funext x
  simp only [below, paste]
  split
  · rfl
  · rfl

theorem above_paste {k : K} {f g : K → Option V} {v : Option V} :
    above k (paste k f v g) = above k g := by
  funext x
  simp only [above, paste]
  split
  next more => rw [if_neg more.not_gt]
  next => rfl

theorem paste_self {k : K} {f g : K → Option V} {v : Option V} : paste k f v g k = v := by
  rw [paste, if_neg (lt_irrefl k), if_neg (lt_irrefl k)]

/-- The list has the entries of the map, by ascending keys. -/
structure Represents (l : List (K × V)) (f : K → Option V) : Prop where
  ascending : l.Pairwise fun a b => a.1 < b.1
  mem_iff : ∀ k v, (k, v) ∈ l ↔ f k = some v

namespace Represents

variable {l r : List (K × V)} {f : K → Option V}

theorem nil : Represents ([] : List (K × V)) fun _ => none :=
  ⟨List.Pairwise.nil, fun _ _ => ⟨nofun, nofun⟩⟩

theorem eq_none (empty : Represents [] f) : f = fun _ => none := by
  funext k
  cases value : f k with
  | none => rfl
  | some v => exact absurd ((empty.mem_iff k v).mpr value) List.not_mem_nil

theorem of_mem {e : K × V} (represents : Represents l f) (member : e ∈ l) : f e.1 = some e.2 :=
  (represents.mem_iff e.1 e.2).mp member

/-- Both sides of an entry represent the map on both sides of its key. -/
theorem append_cons_iff {e : K × V} : Represents (l ++ e :: r) f ↔
    Represents l (below e.1 f) ∧ f e.1 = some e.2 ∧ Represents r (above e.1 f) := by
  constructor
  · intro whole
    obtain ⟨sortedL, sortedR, across⟩ := List.pairwise_append.mp whole.ascending
    have first : ∀ x ∈ l, x.1 < e.1 := fun x member => across x member e (List.mem_cons_self ..)
    have last : ∀ x ∈ r, e.1 < x.1 := fun x => List.rel_of_pairwise_cons sortedR
    refine ⟨⟨sortedL, fun k v => ?_⟩, whole.of_mem (by simp), ⟨sortedR.of_cons, fun k v => ?_⟩⟩
    · rw [below_eq_some, ← whole.mem_iff k v, List.mem_append, List.mem_cons]
      constructor
      · intro member
        exact ⟨first _ member, .inl member⟩
      · rintro ⟨less, member | rfl | member⟩
        · exact member
        · exact absurd less (lt_irrefl _)
        · exact absurd less (last _ member).not_gt
    · rw [above_eq_some, ← whole.mem_iff k v, List.mem_append, List.mem_cons]
      constructor
      · intro member
        exact ⟨last _ member, .inr (.inr member)⟩
      · rintro ⟨less, member | rfl | member⟩
        · exact absurd less (first _ member).not_gt
        · exact absurd less (lt_irrefl _)
        · exact member
  · rintro ⟨left, here, right⟩
    have first : ∀ x ∈ l, x.1 < e.1 := fun x member => (below_eq_some.mp (left.of_mem member)).1
    have last : ∀ x ∈ r, e.1 < x.1 := fun x member => (above_eq_some.mp (right.of_mem member)).1
    refine ⟨List.pairwise_append.mpr ⟨left.ascending,
      List.pairwise_cons.mpr ⟨last, right.ascending⟩, ?_⟩, fun k v => ?_⟩
    · rintro x member y other
      rcases List.mem_cons.mp other with rfl | other
      · exact first x member
      · exact (first x member).trans (last y other)
    · rw [List.mem_append, List.mem_cons, left.mem_iff, right.mem_iff, below_eq_some, above_eq_some]
      constructor
      · rintro (h | rfl | h)
        · exact h.2
        · exact here
        · exact h.2
      · intro value
        rcases lt_trichotomy k e.1 with less | same | more
        · exact .inl ⟨less, value⟩
        · refine .inr (.inl ?_)
          rw [same, here] at value
          exact Prod.ext same (Option.some.inj value).symm
        · exact .inr (.inr ⟨more, value⟩)

/-- Two sides of a key that is not in the map. -/
theorem append {k : K} (left : Represents l (below k f)) (absent : f k = none)
    (right : Represents r (above k f)) : Represents (l ++ r) f := by
  have first : ∀ x ∈ l, x.1 < k := fun x member => (below_eq_some.mp (left.of_mem member)).1
  have last : ∀ x ∈ r, k < x.1 := fun x member => (above_eq_some.mp (right.of_mem member)).1
  refine ⟨List.pairwise_append.mpr ⟨left.ascending, right.ascending, fun x member y other =>
    (first x member).trans (last y other)⟩, fun x v => ?_⟩
  rw [List.mem_append, left.mem_iff, right.mem_iff, below_eq_some, above_eq_some]
  constructor
  · rintro (h | h)
    · exact h.2
    · exact h.2
  · intro value
    rcases lt_trichotomy x k with less | rfl | more
    · exact .inl ⟨less, value⟩
    · rw [absent] at value
      cases value
    · exact .inr ⟨more, value⟩

theorem unique (left : Represents l f) (right : Represents r f) : l = r := by
  have irrefl : Std.Irrefl fun a b : K × V => a.1 < b.1 := ⟨fun a => lt_irrefl a.1⟩
  have asymm : Std.Asymm fun a b : K × V => a.1 < b.1 := ⟨fun a b less => less.not_gt⟩
  apply left.ascending.eq_of_mem_iff right.ascending
  rintro ⟨k, v⟩
  rw [left.mem_iff, right.mem_iff]

/-- A list is cut at a key into its parts on both sides of it. -/
theorem cut (represents : Represents l f) (k : K) :
    ∃ low high, l = low ++ ((f k).map (k, ·)).toList ++ high ∧ Represents low (below k f) ∧
      Represents high (above k f) := by
  have low : Represents (l.filter fun e => e.1 < k) (below k f) := by
    refine ⟨represents.ascending.filter _, fun x v => ?_⟩
    rw [List.mem_filter, represents.mem_iff, below_eq_some, decide_eq_true_eq, and_comm]
  have high : Represents (l.filter fun e => k < e.1) (above k f) := by
    refine ⟨represents.ascending.filter _, fun x v => ?_⟩
    rw [List.mem_filter, represents.mem_iff, above_eq_some, decide_eq_true_eq, and_comm]
  refine ⟨_, _, ?_, low, high⟩
  cases value : f k with
  | none =>
    rw [Option.map_none, Option.toList_none, List.append_nil]
    exact represents.unique (low.append value high)
  | some v =>
    rw [Option.map_some, Option.toList_some, List.append_assoc, List.singleton_append]
    exact represents.unique (append_cons_iff.mpr ⟨low, value, high⟩)

end Represents

end Zeppelin.Ordered
