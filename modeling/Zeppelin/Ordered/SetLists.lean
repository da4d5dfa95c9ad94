import Mathlib.Data.List.Sort
import Mathlib.Order.Basic

/-! Finite sets as strictly ascending lists. The operations walk both lists once
and are given by the members of their results: a strictly ascending list is
determined by its members. -/
namespace Zeppelin.Ordered

variable {α : Type} [LinearOrder α]

def union : List α → List α → List α
  | [], r => r
  | a :: l, [] => a :: l
  | a :: l, b :: r =>
    if a < b then a :: union l (b :: r)
    else if b < a then b :: union (a :: l) r
    else a :: union l r
  termination_by l r => l.length + r.length

/-- The members of the second list that are not in the first. -/
def difference : List α → List α → List α
  | [], r => r
  | _ :: _, [] => []
  | a :: l, b :: r =>
    if a < b then difference l (b :: r)
    else if b < a then b :: difference (a :: l) r
    else difference l r
  termination_by l r => l.length + r.length

def common : List α → List α → List α
  | [], _ => []
  | _ :: _, [] => []
  | a :: l, b :: r =>
    if a < b then common l (b :: r)
    else if b < a then common (a :: l) r
    else a :: common l r
  termination_by l r => l.length + r.length

/-- What a walk over both lists has not passed in the first when the second ends. -/
def leftover : List α → List α → List α
  | [], _ => []
  | a :: l, [] => a :: l
  | a :: l, b :: r =>
    if a < b then leftover l (b :: r)
    else if b < a then leftover (a :: l) r
    else leftover l r
  termination_by l r => l.length + r.length

theorem union_nil_right (l : List α) : union l [] = l := by
  cases l with
  | nil => rw [union]
  | cons a l => rw [union]

theorem difference_nil_right (l : List α) : difference l [] = [] := by
  cases l with
  | nil => rw [difference]
  | cons a l => rw [difference]

theorem leftover_nil_right (l : List α) : leftover l [] = l := by
  cases l with
  | nil => rw [leftover]
  | cons a l => rw [leftover]

theorem mem_union {x : α} {l r : List α} : x ∈ union l r ↔ x ∈ l ∨ x ∈ r := by
  induction l, r using union.induct with
  | case1 r => simp [union]
  | case2 a l => simp [union]
  | case3 a l b r less ih =>
    rw [union, if_pos less, List.mem_cons, ih, List.mem_cons, List.mem_cons, or_assoc]
  | case4 a l b r less more ih =>
    rw [union, if_neg less, if_pos more, List.mem_cons, ih, List.mem_cons, List.mem_cons]
    tauto
  | case5 a l b r less more ih =>
    obtain rfl : a = b := le_antisymm (not_lt.mp more) (not_lt.mp less)
    rw [union, if_neg less, if_neg more, List.mem_cons, ih, List.mem_cons, List.mem_cons]
    tauto

theorem pairwise_union {l r : List α} (left : l.Pairwise (· < ·)) (right : r.Pairwise (· < ·)) :
    (union l r).Pairwise (· < ·) := by
  induction l, r using union.induct with
  | case1 r => rwa [union]
  | case2 a l => rwa [union]
  | case3 a l b r less ih =>
    rw [union, if_pos less]
    refine List.pairwise_cons.mpr ⟨fun x member => ?_, ih left.of_cons right⟩
    rcases mem_union.mp member with member | member
    · exact List.rel_of_pairwise_cons left member
    · rcases List.mem_cons.mp member with rfl | member
      · exact less
      · exact less.trans (List.rel_of_pairwise_cons right member)
  | case4 a l b r less more ih =>
    rw [union, if_neg less, if_pos more]
    refine List.pairwise_cons.mpr ⟨fun x member => ?_, ih left right.of_cons⟩
    rcases mem_union.mp member with member | member
    · rcases List.mem_cons.mp member with rfl | member
      · exact more
      · exact more.trans (List.rel_of_pairwise_cons left member)
    · exact List.rel_of_pairwise_cons right member
  | case5 a l b r less more ih =>
    obtain rfl : a = b := le_antisymm (not_lt.mp more) (not_lt.mp less)
    rw [union, if_neg less, if_neg more]
    refine List.pairwise_cons.mpr ⟨fun x member => ?_, ih left.of_cons right.of_cons⟩
    rcases mem_union.mp member with member | member
    · exact List.rel_of_pairwise_cons left member
    · exact List.rel_of_pairwise_cons right member

theorem ne_of_below {a b x : α} {r : List α} (sorted : (b :: r).Pairwise (· < ·)) (less : a < b)
    (member : x ∈ b :: r) : x ≠ a := by
  rcases List.mem_cons.mp member with rfl | member
  · exact less.ne'
  · exact (less.trans (List.rel_of_pairwise_cons sorted member)).ne'

theorem mem_difference {x : α} {l r : List α} (left : l.Pairwise (· < ·))
    (right : r.Pairwise (· < ·)) : x ∈ difference l r ↔ x ∈ r ∧ x ∉ l := by
  induction l, r using difference.induct with
  | case1 r => simp [difference]
  | case2 a l => simp [difference]
  | case3 a l b r less ih =>
    rw [difference, if_pos less, ih left.of_cons right, List.mem_cons (a := x) (b := a), not_or]
    exact ⟨fun h => ⟨h.1, ne_of_below right less h.1, h.2⟩, fun h => ⟨h.1, h.2.2⟩⟩
  | case4 a l b r less more ih =>
    rw [difference, if_neg less, if_pos more, List.mem_cons, ih left right.of_cons,
      List.mem_cons (a := x) (b := b)]
    constructor
    · rintro (rfl | h)
      · exact ⟨.inl rfl, fun member => ne_of_below left more member rfl⟩
      · exact ⟨.inr h.1, h.2⟩
    · rintro ⟨rfl | h, fresh⟩
      · exact .inl rfl
      · exact .inr ⟨h, fresh⟩
  | case5 a l b r less more ih =>
    obtain rfl : a = b := le_antisymm (not_lt.mp more) (not_lt.mp less)
    rw [difference, if_neg less, if_neg more, ih left.of_cons right.of_cons, List.mem_cons,
      List.mem_cons, not_or]
    constructor
    · rintro ⟨member, fresh⟩
      exact ⟨.inr member, (List.rel_of_pairwise_cons right member).ne', fresh⟩
    · rintro ⟨rfl | member, other, fresh⟩
      · exact absurd rfl other
      · exact ⟨member, fresh⟩

theorem difference_sublist (l r : List α) : (difference l r).Sublist r := by
  induction l, r using difference.induct with
  | case1 r => rw [difference]
  | case2 a l => rw [difference]
  | case3 a l b r less ih =>
    rw [difference, if_pos less]
    exact ih
  | case4 a l b r less more ih =>
    rw [difference, if_neg less, if_pos more]
    exact ih.cons_cons b
  | case5 a l b r less more ih =>
    rw [difference, if_neg less, if_neg more]
    exact ih.cons b

theorem pairwise_difference (l : List α) {r : List α} (right : r.Pairwise (· < ·)) :
    (difference l r).Pairwise (· < ·) := right.sublist (difference_sublist l r)

/-- The walk passes what is in the second list as well. -/
theorem leftover_eq_nil {l r : List α} (left : l.Pairwise (· < ·)) (right : r.Pairwise (· < ·))
    (inside : ∀ x ∈ l, x ∈ r) : leftover l r = [] := by
  induction l, r using leftover.induct with
  | case1 r => rw [leftover]
  | case2 a l => exact absurd (inside a (List.mem_cons_self ..)) List.not_mem_nil
  | case3 a l b r less =>
    rcases List.mem_cons.mp (inside a (List.mem_cons_self ..)) with rfl | later
    · exact absurd less (lt_irrefl a)
    · exact absurd (List.rel_of_pairwise_cons right later) less.not_gt
  | case4 a l b r less more ih =>
    rw [leftover, if_neg less, if_pos more]
    refine ih left right.of_cons fun x member => ?_
    rcases List.mem_cons.mp (inside x member) with rfl | later
    · rcases List.mem_cons.mp member with rfl | after
      · exact absurd more (lt_irrefl x)
      · exact absurd (List.rel_of_pairwise_cons left after) more.not_gt
    · exact later
  | case5 a l b r less more ih =>
    rw [leftover, if_neg less, if_neg more]
    refine ih left.of_cons right.of_cons fun x member => ?_
    rcases List.mem_cons.mp (inside x (List.mem_cons_of_mem a member)) with rfl | later
    · exact absurd (List.rel_of_pairwise_cons left member) less
    · exact later

theorem mem_common {x : α} {l r : List α} (left : l.Pairwise (· < ·))
    (right : r.Pairwise (· < ·)) : x ∈ common l r ↔ x ∈ l ∧ x ∈ r := by
  induction l, r using common.induct with
  | case1 r => simp [common]
  | case2 a l => simp [common]
  | case3 a l b r less ih =>
    rw [common, if_pos less, ih left.of_cons right, List.mem_cons (a := x) (b := a)]
    refine ⟨fun h => ⟨.inr h.1, h.2⟩, fun ⟨member, other⟩ => ⟨?_, other⟩⟩
    exact member.resolve_left (ne_of_below right less other)
  | case4 a l b r less more ih =>
    rw [common, if_neg less, if_pos more, ih left right.of_cons, List.mem_cons (a := x) (b := b)]
    refine ⟨fun h => ⟨h.1, .inr h.2⟩, fun ⟨member, other⟩ => ⟨member, ?_⟩⟩
    exact other.resolve_left (ne_of_below left more member)
  | case5 a l b r less more ih =>
    obtain rfl : a = b := le_antisymm (not_lt.mp more) (not_lt.mp less)
    rw [common, if_neg less, if_neg more, List.mem_cons, ih left.of_cons right.of_cons,
      List.mem_cons, List.mem_cons]
    constructor
    · rintro (rfl | h)
      · exact ⟨.inl rfl, .inl rfl⟩
      · exact ⟨.inr h.1, .inr h.2⟩
    · rintro ⟨same | member, other⟩
      · exact .inl same
      · exact other.elim .inl fun other => .inr ⟨member, other⟩

theorem common_sublist (l r : List α) : (common l r).Sublist l := by
  induction l, r using common.induct with
  | case1 r => rw [common]
  | case2 a l =>
    rw [common]
    exact List.nil_sublist _
  | case3 a l b r less ih =>
    rw [common, if_pos less]
    exact ih.cons a
  | case4 a l b r less more ih =>
    rw [common, if_neg less, if_pos more]
    exact ih
  | case5 a l b r less more ih =>
    rw [common, if_neg less, if_neg more]
    exact ih.cons_cons a

section Split

/-- An ascending list is its parts below and above a key, with the key between. -/
theorem eq_below_append_above {l : List α} (sorted : l.Pairwise (· < ·)) (key : α) :
    l = l.filter (· < key) ++ (if key ∈ l then [key] else []) ++ l.filter (key < ·) := by
  apply sorted.eq_of_mem_iff
  · refine List.pairwise_append.mpr ⟨List.pairwise_append.mpr ⟨sorted.filter _, ?_, ?_⟩,
      sorted.filter _, ?_⟩
    · split
      · exact List.pairwise_singleton _ _
      · exact List.Pairwise.nil
    · intro x below y here
      split at here
      · rw [List.mem_singleton.mp here]
        simpa using (List.mem_filter.mp below).2
      · cases here
    · intro x first y above
      have above : key < y := by simpa using (List.mem_filter.mp above).2
      rcases List.mem_append.mp first with below | here
      · exact lt_trans (by simpa using (List.mem_filter.mp below).2) above
      · split at here
        · rwa [List.mem_singleton.mp here]
        · cases here
  · intro x
    simp only [List.mem_append, List.mem_filter, decide_eq_true_eq]
    constructor
    · intro member
      rcases lt_trichotomy x key with less | rfl | more
      · exact .inl (.inl ⟨member, less⟩)
      · rw [if_pos member]
        exact .inl (.inr (List.mem_singleton.mpr rfl))
      · exact .inr ⟨member, more⟩
    · rintro ((h | h) | h)
      · exact h.1
      · split at h
        · rwa [List.mem_singleton.mp h]
        · cases h
      · exact h.1

end Split

end Zeppelin.Ordered
