import Zeppelin.Aspen.MapSearch

/-! Trees that differ in their values only. Where an operation goes depends on keys
and sizes, so that trees with related values are taken to such trees. -/
namespace Zeppelin.Aspen.Tree

variable {K V W A : Type} {R : V → W → Prop}

/-- Entries with one key and related values. -/
def AlikeEntry (R : V → W → Prop) (e : K × V) (d : K × W) : Prop := e.1 = d.1 ∧ R e.2 d.2

inductive Alike (R : V → W → Prop) : Tree K V A → Tree K W A → Prop
  | null : Alike R null null
  | node {lc rc : Tree K V A} {lc' rc' : Tree K W A} {e : K × V} {d : K × W} {s : Nat} {aug : A}
      (left : Alike R lc lc') (entry : AlikeEntry R e d) (right : Alike R rc rc') :
      Alike R (node lc e rc s aug) (node lc' d rc' s aug)

variable {t lc rc b1 b2 : Tree K V A} {u lc' rc' c1 c2 : Tree K W A} {e : K × V} {d : K × W}

theorem Alike.size_eq (alike : Alike R t u) : t.size = u.size := by
  cases alike with
  | null => rfl
  | node left entry right => rfl

theorem Alike.isLeftHeavy_eq (first : Alike R b1 c1) (second : Alike R b2 c2) :
    isLeftHeavy b1 b2 = isLeftHeavy c1 c2 := by
  rw [isLeftHeavy, isLeftHeavy, weight, weight, weight, weight, first.size_eq, second.size_eq]

theorem Alike.isSingleRotation_eq (alike : Alike R t u) (dir : Bool) :
    isSingleRotation t dir = isSingleRotation u dir := by
  have whole := alike.size_eq
  cases alike with
  | null => rfl
  | node left entry right =>
    rw [isSingleRotation, isSingleRotation, weight, weight, weight, weight, weight, weight,
      left.size_eq, right.size_eq, whole]

theorem Alike.entries (alike : Alike R t u) : List.Forall₂ (AlikeEntry R) t.entries u.entries := by
  induction alike with
  | null => exact .nil
  | node left entry right ihl ihr => exact List.rel_append ihl (.cons entry ihr)

theorem Alike.last (alike : Alike R t u) : Option.Rel (AlikeEntry R) t.last u.last := by
  induction alike with
  | null => exact .none
  | node left entry right ihl ihr =>
    cases right with
    | null => exact .some entry
    | node => exact ihr

section Search

variable [LinearOrder K]

theorem Alike.previousOrEqLoop (alike : Alike R t u) (key : K) {r : Option (K × V)}
    {q : Option (K × W)} (seen : Option.Rel (AlikeEntry R) r q) :
    Option.Rel (AlikeEntry R) (t.previousOrEqLoop key r) (u.previousOrEqLoop key q) := by
  induction alike generalizing r q with
  | null => exact seen
  | node left entry right ihl ihr =>
    rw [Tree.previousOrEqLoop, Tree.previousOrEqLoop, ← entry.1]
    split
    · exact ihr (.some entry)
    · split
      · exact ihl seen
      · exact .some entry

end Search

/-- The augmentation does not tell related values apart. -/
structure AugAlike (K : Type) (R : V → W → Prop) [AugEntry K V A] [AugEntry K W A] : Prop where
  fromEntry : ∀ e : K × V, ∀ d : K × W, AlikeEntry R e d →
    (AugEntry.fromEntry e : A) = AugEntry.fromEntry d
  combine : ∀ a b : A, AugEntry.combine K V a b = AugEntry.combine K W a b

section Joins

variable [AugEntry K V A] [AugEntry K W A] (aug : AugAlike K R)

include aug

theorem Alike.update (left : Alike R lc lc') (entry : AlikeEntry R e d) (right : Alike R rc rc') :
    Alike R (update lc e rc) (update lc' d rc') := by
  unfold Tree.update
  rw [left.size_eq, right.size_eq, aug.fromEntry e d entry]
  cases left with
  | null =>
    cases right with
    | null => exact .node .null entry .null
    | node l m r =>
      simp only [aug.combine]
      exact .node .null entry (.node l m r)
  | node l m r =>
    cases right with
    | null =>
      simp only [aug.combine]
      exact .node (.node l m r) entry .null
    | node l' m' r' =>
      simp only [aug.combine]
      exact .node (.node l m r) entry (.node l' m' r')

theorem Alike.rotateLeft (left : Alike R lc lc') (entry : AlikeEntry R e d)
    (right : Alike R rc rc') : Alike R (rotateLeft lc e rc) (rotateLeft lc' d rc') := by
  cases right with
  | null => exact left.update aug entry .null
  | node l m r => exact (left.update aug entry l).update aug m r

theorem Alike.rotateRight (left : Alike R lc lc') (entry : AlikeEntry R e d)
    (right : Alike R rc rc') : Alike R (rotateRight lc e rc) (rotateRight lc' d rc') := by
  cases left with
  | null => exact Alike.null.update aug entry right
  | node l m r => exact l.update aug m (r.update aug entry right)

theorem Alike.doubleRotateLeft (left : Alike R lc lc') (entry : AlikeEntry R e d)
    (right : Alike R rc rc') : Alike R (doubleRotateLeft lc e rc) (doubleRotateLeft lc' d rc') := by
  cases right with
  | null => exact left.update aug entry .null
  | node inner m r =>
    cases inner with
    | null => exact left.update aug entry (.node .null m r)
    | node l n k => exact (left.update aug entry l).update aug n (k.update aug m r)

theorem Alike.doubleRotateRight (left : Alike R lc lc') (entry : AlikeEntry R e d)
    (right : Alike R rc rc') :
    Alike R (doubleRotateRight lc e rc) (doubleRotateRight lc' d rc') := by
  cases left with
  | null => exact Alike.null.update aug entry right
  | node l m inner =>
    cases inner with
    | null => exact (Alike.node l m .null).update aug entry right
    | node k n r => exact (l.update aug m k).update aug n (r.update aug entry right)

theorem Alike.rebalanceLeft (left : Alike R lc lc') (entry : AlikeEntry R e d)
    (right : Alike R rc rc') : Alike R (rebalanceLeft lc e rc) (rebalanceLeft lc' d rc') := by
  rw [Tree.rebalanceLeft, Tree.rebalanceLeft, right.isLeftHeavy_eq left, right.isSingleRotation_eq]
  split
  · split
    · exact left.rotateLeft aug entry right
    · exact left.doubleRotateLeft aug entry right
  · exact left.update aug entry right

theorem Alike.rebalanceRight (left : Alike R lc lc') (entry : AlikeEntry R e d)
    (right : Alike R rc rc') : Alike R (rebalanceRight lc e rc) (rebalanceRight lc' d rc') := by
  rw [Tree.rebalanceRight, Tree.rebalanceRight, left.isLeftHeavy_eq right, left.isSingleRotation_eq]
  split
  · split
    · exact left.rotateRight aug entry right
    · exact left.doubleRotateRight aug entry right
  · exact left.update aug entry right

theorem Alike.rightJoin (second : Alike R b2 c2) (entry : AlikeEntry R e d) (first : Alike R b1 c1) :
    Alike R (rightJoin b2 e b1) (rightJoin c2 d c1) := by
  induction first with
  | null => exact Alike.null.update aug entry second
  | node left m right ihl ihr =>
    rw [Tree.rightJoin, Tree.rightJoin, (Alike.node left m right).isLeftHeavy_eq second]
    split
    · exact left.rebalanceLeft aug m ihr
    · exact (Alike.node left m right).update aug entry second

theorem Alike.leftJoin (first : Alike R b1 c1) (entry : AlikeEntry R e d) (second : Alike R b2 c2) :
    Alike R (leftJoin b1 e b2) (leftJoin c1 d c2) := by
  induction second with
  | null => exact first.update aug entry .null
  | node left m right ihl ihr =>
    rw [Tree.leftJoin, Tree.leftJoin, (Alike.node left m right).isLeftHeavy_eq first]
    split
    · exact ihl.rebalanceRight aug m right
    · exact first.update aug entry (.node left m right)

theorem Alike.nodeJoin (first : Alike R b1 c1) (second : Alike R b2 c2) (entry : AlikeEntry R e d) :
    Alike R (nodeJoin b1 b2 e) (nodeJoin c1 c2 d) := by
  rw [Tree.nodeJoin, Tree.nodeJoin, first.isLeftHeavy_eq second, second.isLeftHeavy_eq first]
  split
  · exact second.rightJoin aug entry first
  · split
    · exact first.leftJoin aug entry second
    · exact first.update aug entry second

theorem Alike.join2 (first : Alike R b1 c1) (second : Alike R b2 c2) :
    Alike R (join2 b1 b2) (join2 c1 c2) := by
  induction first generalizing b2 c2 with
  | null =>
    rw [Tree.join2, Tree.join2]
    exact second
  | node left m right ihl ihr =>
    induction second with
    | null =>
      rw [Tree.join2, Tree.join2]
      · exact .node left m right
      · rintro ⟨⟩
      · rintro ⟨⟩
    | node left' m' right' ihl' ihr' =>
      rw [Tree.join2, Tree.join2, (Alike.node left m right).size_eq,
        (Alike.node left' m' right').size_eq]
      split
      · exact left.nodeJoin aug (ihr (.node left' m' right')) m
      · exact ihl'.nodeJoin aug right' m'

/-- `insert` with a function that takes the new value. -/
theorem Alike.insert [LinearOrder K] (alike : Alike R t u) (entry : AlikeEntry R e d) :
    Alike R (t.insert e fun _ b => b) (u.insert d fun _ b => b) := by
  induction alike with
  | null =>
    have one := Alike.null.update aug entry .null
    exact one
  | node left m right ihl ihr =>
    rw [Tree.insert, Tree.insert, ← m.1, ← entry.1]
    split
    · exact left.nodeJoin aug ihr m
    · split
      · exact ihl.nodeJoin aug right m
      · exact left.nodeJoin aug right ⟨rfl, entry.2⟩

theorem Alike.fromArray {l : List (K × V)} {m : List (K × W)} (alike : List.Forall₂ (AlikeEntry R) l m) :
    Alike R (fromArray l : Tree K V A) (fromArray m) := by
  induction l using fromArray.induct (K := K) (V := V) generalizing m with
  | case1 =>
    cases alike
    rw [Tree.fromArray, Tree.fromArray]
    exact .null
  | case2 e =>
    obtain ⟨d, m, entry, rest, rfl⟩ := List.forall₂_cons_left_iff.mp alike
    cases rest
    rw [Tree.fromArray, Tree.fromArray]
    exact Alike.null.update aug entry .null
  | case3 a b l mid =>
    rename_i none
    have := congrArg List.length none
    simp only [mid, List.length_drop, List.length_cons, List.length_nil] at this
    omega
  | case4 a b l mid e rest cut ihl =>
    rename_i ihr
    have lower := List.forall₂_take mid alike
    have upper := List.forall₂_drop mid alike
    rw [cut] at upper
    obtain ⟨d, rest', entry, others, cut'⟩ := List.forall₂_cons_left_iff.mp upper
    have half : mid = m.length / 2 := congrArg (· / 2) alike.length_eq
    obtain ⟨a', m, -, more, rfl⟩ := List.forall₂_cons_left_iff.mp alike
    obtain ⟨b', m, -, -, rfl⟩ := List.forall₂_cons_left_iff.mp more
    rw [fromArray_eq cut]
    rw [half] at cut' lower
    rw [fromArray_eq cut', ← half]
    exact (ihl (half ▸ lower)).nodeJoin aug (ihr others) entry

end Joins

end Zeppelin.Aspen.Tree
