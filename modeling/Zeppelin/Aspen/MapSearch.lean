import Zeppelin.Aspen.MapOps

/-! Searches in ordered trees, from `sequence_ops.h` and `map_ops.h`. Each is a
loop from the root to a leaf, and a fact about the entries in their order. -/
namespace Zeppelin.Aspen.Tree

variable {K V A : Type} [LinearOrder K]

def find (key : K) : Tree K V A → Option (K × V)
  | null => none
  | node lc e rc _ _ => if key < e.1 then lc.find key else if e.1 < key then rc.find key else some e

def previousOrEqLoop (key : K) (r : Option (K × V)) : Tree K V A → Option (K × V)
  | null => r
  | node lc e rc _ _ =>
    if e.1 < key then rc.previousOrEqLoop key (some e)
    else if key < e.1 then lc.previousOrEqLoop key r
    else some e

def previousOrEq (key : K) (b : Tree K V A) : Option (K × V) := b.previousOrEqLoop key none

/-- `previous`, with the last entry seen below the key. -/
def previousLoop (key : K) (r : Option (K × V)) : Tree K V A → Option (K × V)
  | null => r
  | node lc e rc _ _ => if e.1 < key then rc.previousLoop key (some e) else lc.previousLoop key r

def previous (key : K) (b : Tree K V A) : Option (K × V) := b.previousLoop key none

def rankLoop (key : K) (ret : Nat) : Tree K V A → Nat
  | null => ret
  | node lc e rc _ _ => if e.1 < key then rc.rankLoop key (ret + (1 + lc.size)) else lc.rankLoop key ret

/-- `rank`: the number of keys below a key. -/
def rank (key : K) (b : Tree K V A) : Nat := b.rankLoop key 0

def select (rank : Nat) : Tree K V A → Option (K × V)
  | null => none
  | node lc e rc _ _ =>
    if lc.size < rank then rc.select (rank - (lc.size + 1))
    else if rank < lc.size then lc.select rank
    else some e

def first : Tree K V A → Option (K × V)
  | null => none
  | node null e _ _ _ => some e
  | node lc _ _ _ _ => lc.first

def last : Tree K V A → Option (K × V)
  | null => none
  | node _ e null _ _ => some e
  | node _ _ rc _ _ => rc.last

omit [LinearOrder K] in
theorem first_eq (t : Tree K V A) : t.first = t.entries.head? := by
  induction t with
  | null => rfl
  | node lc e rc s aug ihl ihr =>
    cases lc with
    | null => rfl
    | node l e' r s' aug' =>
      rw [Tree.first, ihl, entries, List.head?_append]
      · simp [entries]
      · rintro ⟨⟩

omit [LinearOrder K] in
theorem last_eq (t : Tree K V A) : t.last = t.entries.getLast? := by
  induction t with
  | null => rfl
  | node lc e rc s aug ihl ihr =>
    cases rc with
    | null => simp [Tree.last, entries]
    | node l e' r s' aug' =>
      rw [Tree.last, ihr, entries.eq_2, List.getLast?_append]
      · simp [entries, List.getLast?_cons]
      · rintro ⟨⟩

omit [LinearOrder K] in
theorem Cached.select_eq [AugEntry K V A] {t : Tree K V A} (cached : t.Cached) (i : Nat) :
    t.select i = t.entries[i]? := by
  induction t generalizing i with
  | null => rfl
  | node lc e rc s aug ihl ihr =>
    obtain ⟨-, left, right⟩ := cached
    have size := left.size_eq
    rw [Tree.select, entries]
    rcases Nat.lt_trichotomy i lc.size with less | same | more
    · rw [if_neg (by omega), if_pos less, ihl left, List.getElem?_append_left (by omega)]
    · rw [if_neg (by omega), if_neg (by omega), List.getElem?_append_right (by omega), ← size, same,
        Nat.sub_self]
      rfl
    · rw [if_pos more, ihr right, List.getElem?_append_right (by omega), ← size]
      obtain ⟨j, rfl⟩ : ∃ j, i = lc.size + 1 + j := ⟨i - (lc.size + 1), by omega⟩
      rw [Nat.add_sub_cancel_left, Nat.add_assoc, Nat.add_sub_cancel_left, Nat.add_comm 1 j,
        List.getElem?_cons_succ]

variable {t : Tree K V A}

/-- The entries of an ordered tree are those of its children around its own. -/
theorem ordered_node {lc rc : Tree K V A} {e : K × V} {s : Nat} {aug : A}
    (ordered : (node lc e rc s aug).entries.Pairwise fun a b => a.1 < b.1) :
    (lc.entries.Pairwise fun a b => a.1 < b.1) ∧ (rc.entries.Pairwise fun a b => a.1 < b.1) ∧
      (∀ x ∈ lc.entries, x.1 < e.1) ∧ ∀ x ∈ rc.entries, e.1 < x.1 := by
  obtain ⟨left, right, across⟩ := List.pairwise_append.mp ordered
  exact ⟨left, right.of_cons, fun x member => across x member e (List.mem_cons_self ..),
    fun x => List.rel_of_pairwise_cons right⟩

theorem find_eq (ordered : t.entries.Pairwise fun a b => a.1 < b.1) (key : K) :
    t.find key = t.entries.find? fun e => e.1 = key := by
  induction t with
  | null => rfl
  | node lc e rc s aug ihl ihr =>
    obtain ⟨left, right, low, high⟩ := ordered_node ordered
    rw [Tree.find, entries, List.find?_append, List.find?_cons]
    rcases lt_trichotomy key e.1 with less | rfl | more
    · have none : rc.entries.find? (fun e => e.1 = key) = none := by
        simpa using fun a b member => (less.trans (high (a, b) member)).ne'
      rw [if_pos less, ihl left, none, decide_eq_false less.ne']
      simp
    · have none : lc.entries.find? (fun x => x.1 = e.1) = none := by
        simpa using fun a b member => (low (a, b) member).ne
      rw [if_neg (lt_irrefl _), if_neg (lt_irrefl _), none]
      simp
    · have none : lc.entries.find? (fun e => e.1 = key) = none := by
        simpa using fun a b member => ((low (a, b) member).trans more).ne
      rw [if_neg more.not_gt, if_pos more, ihr right, none, decide_eq_false more.ne]
      simp

theorem previousOrEqLoop_eq (ordered : t.entries.Pairwise fun a b => a.1 < b.1) (key : K)
    (r : Option (K × V)) :
    t.previousOrEqLoop key r = ((t.entries.filter fun e => e.1 ≤ key).getLast?).or r := by
  induction t generalizing r with
  | null => rfl
  | node lc e rc s aug ihl ihr =>
    obtain ⟨left, right, low, high⟩ := ordered_node ordered
    rw [previousOrEqLoop, entries, List.filter_append, List.filter_cons, List.getLast?_append]
    rcases lt_trichotomy e.1 key with less | same | more
    · simp [less, less.le, ihr right, List.getLast?_cons]
    · have none : (rc.entries.filter fun e => e.1 ≤ key) = [] := by
        simpa [← same] using fun a b member => high (a, b) member
      simp [same, none]
    · have none : (rc.entries.filter fun e => e.1 ≤ key) = [] := by
        simpa using fun a b member => more.trans (high (a, b) member)
      simp [more, more.not_gt, more.not_ge, ihl left, none]

theorem previousOrEq_eq (ordered : t.entries.Pairwise fun a b => a.1 < b.1) (key : K) :
    t.previousOrEq key = (t.entries.filter fun e => e.1 ≤ key).getLast? := by
  rw [previousOrEq, previousOrEqLoop_eq ordered, Option.or_none]

theorem previousLoop_eq (ordered : t.entries.Pairwise fun a b => a.1 < b.1) (key : K)
    (r : Option (K × V)) :
    t.previousLoop key r = ((t.entries.filter fun e => e.1 < key).getLast?).or r := by
  induction t generalizing r with
  | null => rfl
  | node lc e rc s aug ihl ihr =>
    obtain ⟨left, right, low, high⟩ := ordered_node ordered
    rw [previousLoop, entries, List.filter_append, List.filter_cons, List.getLast?_append]
    by_cases less : e.1 < key
    · simp [less, ihr right, List.getLast?_cons]
    · have none : (rc.entries.filter fun e => e.1 < key) = [] := by
        simpa using fun a b member => (not_lt.mp less).trans (high (a, b) member).le
      simp [less, ihl left, none]

theorem previous_eq (ordered : t.entries.Pairwise fun a b => a.1 < b.1) (key : K) :
    t.previous key = (t.entries.filter fun e => e.1 < key).getLast? := by
  rw [previous, previousLoop_eq ordered, Option.or_none]

theorem rankLoop_eq [AugEntry K V A] (cached : t.Cached) (ordered : t.entries.Pairwise fun a b => a.1 < b.1)
    (key : K) (ret : Nat) :
    t.rankLoop key ret = ret + (t.entries.filter fun e => e.1 < key).length := by
  induction t generalizing ret with
  | null => rfl
  | node lc e rc s aug ihl ihr =>
    obtain ⟨-, cachedL, cachedR⟩ := cached
    obtain ⟨left, right, low, high⟩ := ordered_node ordered
    rw [rankLoop, entries, List.filter_append, List.filter_cons, List.length_append]
    by_cases less : e.1 < key
    · have all : (lc.entries.filter fun e => e.1 < key) = lc.entries := by
        rw [List.filter_eq_self]
        exact fun x member => decide_eq_true ((low x member).trans less)
      rw [if_pos less, ihr cachedR right, all, cachedL.size_eq, if_pos (decide_eq_true less),
        List.length_cons]
      omega
    · have none : (rc.entries.filter fun e => e.1 < key) = [] := by
        simpa using fun a b member => (not_lt.mp less).trans (high (a, b) member).le
      simp [less, ihl cachedL left, none]

theorem rank_eq [AugEntry K V A] (cached : t.Cached) (ordered : t.entries.Pairwise fun a b => a.1 < b.1) (key : K) :
    t.rank key = (t.entries.filter fun e => e.1 < key).length := by
  rw [rank, rankLoop_eq cached ordered, Nat.zero_add]

end Zeppelin.Aspen.Tree
