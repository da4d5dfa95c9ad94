import Zeppelin.Machine.Double
import Mathlib.Data.List.Basic

/-! Weight-balanced trees that are joined, from `weight_balanced_tree.h`,
`balance_utils.h`, `basic_node.h` and `augmented_node.h`. A tree is the value
that its nodes hold: the code shares nodes and reuses them in place, and what is
modelled is what they hold afterwards. A size is a `node_size_t` of 32 bits and
stands for its number while trees have fewer than `2 ^ 32` entries. -/
namespace Zeppelin.Aspen

/-- The augmentation that an entry defines. -/
class AugEntry (K V : Type) (A : outParam Type) where
  getEmpty : A
  fromEntry : K × V → A
  combine : A → A → A

/-- A node keeps its size and its augmented value. -/
inductive Tree (K V A : Type) where
  | null
  | node (lc : Tree K V A) (entry : K × V) (rc : Tree K V A) (s : Nat) (aug : A)
  deriving DecidableEq, Repr

namespace Tree

variable {K V A : Type}

def size : Tree K V A → Nat
  | null => 0
  | node _ _ _ s _ => s

/-- `weight`, a whole number that a double holds exactly. It is taken of parts of a
tree only, so the sum does not wrap either. -/
def weight (t : Tree K V A) : Nat := t.size + 1

/-- `ratio`, the double that `0.29 / (1 - 0.29)` evaluates to, times `2 ^ 54`. -/
def ratioScaled : Nat := 7357993757394050

/-- `beta`, the double that `(1 - 2 * 0.29) / (1 - 0.29)` evaluates to, times `2 ^ 53`. -/
def betaScaled : Nat := 5328202376043968

/-- `ratio * weight(t1) > weight(t2)`, with the product rounded. -/
def isLeftHeavy (t1 t2 : Tree K V A) : Bool :=
  t2.weight * 2 ^ 54 < Word.toDouble (ratioScaled * t1.weight)

/-- `balance <= beta * weight(t)`, with the product rounded. -/
def isSingleRotation (t : Tree K V A) (dir : Bool) : Bool :=
  match t with
  | null => true
  | node lc _ rc _ _ =>
    (if dir then rc.weight else lc.weight) * 2 ^ 53 ≤ Word.toDouble (betaScaled * t.weight)

/-- `is_balanced`. -/
def isBalanced : Tree K V A → Bool
  | null => true
  | node lc _ rc _ _ => !(isLeftHeavy lc rc || isLeftHeavy rc lc)

/-- `check_balance`. -/
def checkBalance : Tree K V A → Bool
  | null => true
  | t@(node lc _ rc _ _) => isBalanced t && (checkBalance lc && checkBalance rc)

/-- The entries from left to right. -/
def entries : Tree K V A → List (K × V)
  | null => []
  | node lc e rc _ _ => lc.entries ++ e :: rc.entries

variable [AugEntry K V A]

def augVal : Tree K V A → A
  | null => AugEntry.getEmpty K V
  | node _ _ _ _ aug => aug

/-- A node with its children set, after `update`. -/
def update (lc : Tree K V A) (e : K × V) (rc : Tree K V A) : Tree K V A :=
  let av := AugEntry.fromEntry e
  let av := match lc with
    | null => av
    | node _ _ _ _ aug => AugEntry.combine K V aug av
  let av := match rc with
    | null => av
    | node _ _ _ _ aug => AugEntry.combine K V av aug
  node lc e rc (lc.size + rc.size + 1) av

def single (e : K × V) : Tree K V A := node null e null 1 (AugEntry.fromEntry e)

section Join

/-- `rotate_left`. The code requires the right child; it is there when the
right child is heavy. -/
def rotateLeft (lc : Tree K V A) (e : K × V) (rc : Tree K V A) : Tree K V A :=
  match rc with
  | node lsub root rsub _ _ => update (update lc e lsub) root rsub
  | null => update lc e rc

def rotateRight (lc : Tree K V A) (e : K × V) (rc : Tree K V A) : Tree K V A :=
  match lc with
  | node lsub root rsub _ _ => update lsub root (update rsub e rc)
  | null => update lc e rc

/-- `double_rotate_left`. The code requires the left child of the right child;
it is there when a single rotation is not enough. -/
def doubleRotateLeft (lc : Tree K V A) (e : K × V) (rc : Tree K V A) : Tree K V A :=
  match rc with
  | node (node lsub root rsub _ _) r rr _ _ => update (update lc e lsub) root (update rsub r rr)
  | _ => update lc e rc

def doubleRotateRight (lc : Tree K V A) (e : K × V) (rc : Tree K V A) : Tree K V A :=
  match lc with
  | node ll l (node lsub root rsub _ _) _ _ => update (update ll l lsub) root (update rsub e rc)
  | _ => update lc e rc

/-- `rebalance if needed` in `right_join`. -/
def rebalanceLeft (lc : Tree K V A) (e : K × V) (rc : Tree K V A) : Tree K V A :=
  if isLeftHeavy rc lc then
    if isSingleRotation rc false then rotateLeft lc e rc else doubleRotateLeft lc e rc
  else update lc e rc

/-- `rebalance if needed` in `left_join`. -/
def rebalanceRight (lc : Tree K V A) (e : K × V) (rc : Tree K V A) : Tree K V A :=
  if isLeftHeavy lc rc then
    if isSingleRotation lc true then rotateRight lc e rc else doubleRotateRight lc e rc
  else update lc e rc

/-- `right_join`. An empty left tree is never heavy. -/
def rightJoin (t2 : Tree K V A) (k : K × V) : Tree K V A → Tree K V A
  | null => update null k t2
  | t1@(node lc e rc _ _) =>
    if isLeftHeavy t1 t2 then rebalanceLeft lc e (rightJoin t2 k rc) else update t1 k t2

/-- `left_join`. -/
def leftJoin (t1 : Tree K V A) (k : K × V) : Tree K V A → Tree K V A
  | null => update t1 k null
  | t2@(node lc e rc _ _) =>
    if isLeftHeavy t2 t1 then rebalanceRight (leftJoin t1 k lc) e rc else update t1 k t2

def nodeJoin (t1 t2 : Tree K V A) (k : K × V) : Tree K V A :=
  if isLeftHeavy t1 t2 then rightJoin t2 k t1
  else if isLeftHeavy t2 t1 then leftJoin t1 k t2
  else update t1 k t2

end Join

/-- The size and the augmented value of every node are those of its children. -/
def Cached : Tree K V A → Prop
  | null => True
  | t@(node lc e rc _ _) => t = update lc e rc ∧ lc.Cached ∧ rc.Cached

@[simp] theorem entries_update (lc : Tree K V A) (e : K × V) (rc : Tree K V A) :
    (update lc e rc).entries = lc.entries ++ e :: rc.entries := rfl

@[simp] theorem size_update (lc : Tree K V A) (e : K × V) (rc : Tree K V A) :
    (update lc e rc).size = lc.size + rc.size + 1 := rfl

theorem Cached.update {lc rc : Tree K V A} (left : lc.Cached) (e : K × V) (right : rc.Cached) :
    (update lc e rc).Cached := ⟨rfl, left, right⟩

theorem Cached.size_eq {t : Tree K V A} (cached : t.Cached) : t.size = t.entries.length := by
  induction t with
  | null => rfl
  | node lc e rc s aug ihl ihr =>
    obtain ⟨same, left, right⟩ := cached
    rw [same, size_update, entries_update, ihl left, ihr right, List.length_append,
      List.length_cons]
    omega

section Rotations

variable (lc : Tree K V A) (e : K × V) (rc : Tree K V A)

theorem entries_rotateLeft : (rotateLeft lc e rc).entries = lc.entries ++ e :: rc.entries := by
  cases rc with
  | null => rfl
  | node lsub root rsub s aug => simp [rotateLeft, entries]

theorem entries_rotateRight : (rotateRight lc e rc).entries = lc.entries ++ e :: rc.entries := by
  cases lc with
  | null => rfl
  | node lsub root rsub s aug => simp [rotateRight, entries]

theorem entries_doubleRotateLeft :
    (doubleRotateLeft lc e rc).entries = lc.entries ++ e :: rc.entries := by
  unfold doubleRotateLeft
  split
  · simp [entries]
  · rfl

theorem entries_doubleRotateRight :
    (doubleRotateRight lc e rc).entries = lc.entries ++ e :: rc.entries := by
  unfold doubleRotateRight
  split
  · simp [entries]
  · rfl

theorem entries_rebalanceLeft :
    (rebalanceLeft lc e rc).entries = lc.entries ++ e :: rc.entries := by
  rw [rebalanceLeft]
  split
  · split
    · exact entries_rotateLeft lc e rc
    · exact entries_doubleRotateLeft lc e rc
  · rfl

theorem entries_rebalanceRight :
    (rebalanceRight lc e rc).entries = lc.entries ++ e :: rc.entries := by
  rw [rebalanceRight]
  split
  · split
    · exact entries_rotateRight lc e rc
    · exact entries_doubleRotateRight lc e rc
  · rfl

variable {lc rc} (left : lc.Cached) (right : rc.Cached)

include left right

theorem Cached.rotateLeft : (rotateLeft lc e rc).Cached := by
  cases rc with
  | null => exact left.update e right
  | node lsub root rsub s aug => exact (left.update e right.2.1).update root right.2.2

theorem Cached.rotateRight : (rotateRight lc e rc).Cached := by
  cases lc with
  | null => exact left.update e right
  | node lsub root rsub s aug => exact left.2.1.update root (left.2.2.update e right)

theorem Cached.doubleRotateLeft : (doubleRotateLeft lc e rc).Cached := by
  unfold Tree.doubleRotateLeft
  split
  · exact (left.update e right.2.1.2.1).update _ (right.2.1.2.2.update _ right.2.2)
  · exact left.update e right

theorem Cached.doubleRotateRight : (doubleRotateRight lc e rc).Cached := by
  unfold Tree.doubleRotateRight
  split
  · exact (left.2.1.update _ left.2.2.2.1).update _ (left.2.2.2.2.update e right)
  · exact left.update e right

theorem Cached.rebalanceLeft : (rebalanceLeft lc e rc).Cached := by
  rw [Tree.rebalanceLeft]
  split
  · split
    · exact left.rotateLeft e right
    · exact left.doubleRotateLeft e right
  · exact left.update e right

theorem Cached.rebalanceRight : (rebalanceRight lc e rc).Cached := by
  rw [Tree.rebalanceRight]
  split
  · split
    · exact left.rotateRight e right
    · exact left.doubleRotateRight e right
  · exact left.update e right

end Rotations

/-- Whatever the balance tests say, a join keeps the order of the entries. -/
theorem entries_rightJoin (t2 : Tree K V A) (k : K × V) (t1 : Tree K V A) :
    (rightJoin t2 k t1).entries = t1.entries ++ k :: t2.entries := by
  induction t1 with
  | null => rfl
  | node lc e rc s aug ihl ihr =>
    rw [rightJoin]
    split
    · rw [entries_rebalanceLeft, ihr, entries, List.append_assoc, List.cons_append]
    · rfl

theorem entries_leftJoin (t1 : Tree K V A) (k : K × V) (t2 : Tree K V A) :
    (leftJoin t1 k t2).entries = t1.entries ++ k :: t2.entries := by
  induction t2 with
  | null => rfl
  | node lc e rc s aug ihl ihr =>
    rw [leftJoin]
    split
    · rw [entries_rebalanceRight, ihl, entries, List.append_assoc, List.cons_append]
    · rfl

@[simp] theorem entries_nodeJoin (t1 t2 : Tree K V A) (k : K × V) :
    (nodeJoin t1 t2 k).entries = t1.entries ++ k :: t2.entries := by
  rw [nodeJoin]
  split
  · exact entries_rightJoin t2 k t1
  · split
    · exact entries_leftJoin t1 k t2
    · rfl

theorem Cached.rightJoin {t1 t2 : Tree K V A} (left : t1.Cached) (k : K × V) (right : t2.Cached) :
    (rightJoin t2 k t1).Cached := by
  induction t1 with
  | null => exact left.update k right
  | node lc e rc s aug ihl ihr =>
    rw [Tree.rightJoin]
    split
    · exact left.2.1.rebalanceLeft e (ihr left.2.2)
    · exact left.update k right

theorem Cached.leftJoin {t1 t2 : Tree K V A} (left : t1.Cached) (k : K × V) (right : t2.Cached) :
    (leftJoin t1 k t2).Cached := by
  induction t2 with
  | null => exact left.update k trivial
  | node lc e rc s aug ihl ihr =>
    rw [Tree.leftJoin]
    split
    · exact (ihl right.2.1).rebalanceRight e right.2.2
    · exact left.update k right

theorem Cached.nodeJoin {t1 t2 : Tree K V A} (left : t1.Cached) (right : t2.Cached) (k : K × V) :
    (nodeJoin t1 t2 k).Cached := by
  rw [Tree.nodeJoin]
  split
  · exact left.rightJoin k right
  · split
    · exact left.leftJoin k right
    · exact left.update k right

section Weights

omit [AugEntry K V A]

theorem weight_pos (t : Tree K V A) : 0 < t.weight := Nat.succ_pos _

/-- The rounded product decides the exact comparison, also at equality: the
error of `ratio` is less than half a unit. -/
theorem isLeftHeavy_iff {t1 t2 : Tree K V A} (small : t1.weight ≤ 2 ^ 34) :
    isLeftHeavy t1 t2 = true ↔ 71 * t2.weight < 29 * t1.weight := by
  rw [isLeftHeavy, decide_eq_true_eq]
  generalize t1.weight = a at small ⊢
  generalize t2.weight = b
  have unit : Word.ulp (ratioScaled * a) ∣ 2 ^ 34 := Word.ulp_dvd_two_pow (by
    rw [ratioScaled]
    omega)
  have dvd : Word.ulp (ratioScaled * a) ∣ b * 2 ^ 54 :=
    (unit.trans (Nat.pow_dvd_pow 2 (by decide))).mul_left b
  have most := Nat.le_of_dvd (by decide) unit
  have least := Word.lt_ulp_mul (ratioScaled * a)
  constructor
  · intro heavy
    by_contra balanced
    have below := Word.toDouble_le dvd (by
      rw [ratioScaled] at least ⊢
      omega)
    omega
  · intro heavy
    have near := (Word.toDouble_near (ratioScaled * a)).1
    rw [ratioScaled] at most near ⊢
    omega

theorem isSingleRotation_iff {lc rc : Tree K V A} {e : K × V} {s : Nat} {aug : A} {dir : Bool}
    (small : s < 2 ^ 34) :
    isSingleRotation (node lc e rc s aug) dir = true ↔
      71 * (if dir then rc.weight else lc.weight) ≤ 42 * (s + 1) := by
  have own : (node lc e rc s aug).weight = s + 1 := rfl
  rw [isSingleRotation, decide_eq_true_eq, own]
  generalize (if dir then rc.weight else lc.weight) = b
  have unit : Word.ulp (betaScaled * (s + 1)) ∣ 2 ^ 34 := Word.ulp_dvd_two_pow (by
    rw [betaScaled]
    omega)
  have dvd : Word.ulp (betaScaled * (s + 1)) ∣ b * 2 ^ 53 :=
    (unit.trans (Nat.pow_dvd_pow 2 (by decide))).mul_left b
  have most := Nat.le_of_dvd (by decide) unit
  constructor
  · intro single
    have near := (Word.toDouble_near (betaScaled * (s + 1))).2
    rw [betaScaled] at most near single
    omega
  · intro single
    apply Word.le_toDouble dvd
    rw [betaScaled]
    omega

theorem checkBalance_node {lc rc : Tree K V A} {e : K × V} {s : Nat} {aug : A}
    (left : lc.weight ≤ 2 ^ 34) (right : rc.weight ≤ 2 ^ 34) :
    checkBalance (node lc e rc s aug) = true ↔
      (29 * lc.weight ≤ 71 * rc.weight ∧ 29 * rc.weight ≤ 71 * lc.weight) ∧
        checkBalance lc = true ∧ checkBalance rc = true := by
  rw [checkBalance, isBalanced, Bool.and_eq_true, Bool.and_eq_true, Bool.not_eq_true',
    Bool.or_eq_false_iff, ← Bool.not_eq_true, ← Bool.not_eq_true, isLeftHeavy_iff left,
    isLeftHeavy_iff right, not_lt, not_lt]

end Weights

section Balance

theorem weight_update (lc : Tree K V A) (e : K × V) (rc : Tree K V A) :
    (update lc e rc).weight = lc.weight + rc.weight := by
  rw [weight, size_update, weight, weight]
  omega

theorem checkBalance_update {lc rc : Tree K V A} {e : K × V}
    (small : lc.weight + rc.weight ≤ 2 ^ 34) :
    checkBalance (update lc e rc) = true ↔
      (29 * lc.weight ≤ 71 * rc.weight ∧ 29 * rc.weight ≤ 71 * lc.weight) ∧
        checkBalance lc = true ∧ checkBalance rc = true :=
  checkBalance_node (by omega) (by omega)

/-- A right child that outgrew its sibling by at most so much is put right by
one rotation, single or double. -/
theorem checkBalance_rebalanceLeft {lc rc : Tree K V A} {e : K × V} (cached : rc.Cached)
    (small : lc.weight + rc.weight ≤ 2 ^ 34)
    (left : checkBalance lc = true) (right : checkBalance rc = true)
    (low : 29 * lc.weight ≤ 71 * rc.weight) (high : 2059 * rc.weight ≤ 7941 * lc.weight) :
    checkBalance (rebalanceLeft lc e rc) = true := by
  rw [rebalanceLeft]
  split
  next heavy =>
    rw [isLeftHeavy_iff (by omega)] at heavy
    cases rc with
    | null =>
      have one : (null : Tree K V A).weight = 1 := rfl
      omega
    | node lsub root rsub s aug =>
      obtain ⟨same, cachedL, cachedR⟩ := cached
      have parts : (node lsub root rsub s aug).weight = lsub.weight + rsub.weight := by
        rw [same, weight_update]
      have own : s + 1 = lsub.weight + rsub.weight := parts
      rw [parts] at small low high heavy
      have leftPos := weight_pos lc
      obtain ⟨⟨near, far⟩, balL, balR⟩ := (checkBalance_node (by omega) (by omega)).mp right
      split
      next single =>
        rw [isSingleRotation_iff (by omega), if_neg (by decide), own] at single
        rw [rotateLeft, checkBalance_update (by rw [weight_update]; omega),
          checkBalance_update (by omega), weight_update]
        exact ⟨by omega, ⟨by omega, left, balL⟩, balR⟩
      next double =>
        rw [isSingleRotation_iff (by omega), if_neg (by decide), own] at double
        cases lsub with
        | null =>
          have one : (null : Tree K V A).weight = 1 := rfl
          have := weight_pos rsub
          omega
        | node ll mid lr s' aug' =>
          obtain ⟨same', -, -⟩ := cachedL
          have parts' : (node ll mid lr s' aug').weight = ll.weight + lr.weight := by
            rw [same', weight_update]
          rw [parts'] at small low high heavy near far double
          obtain ⟨⟨near', far'⟩, balLL, balLR⟩ := (checkBalance_node (by omega) (by omega)).mp balL
          rw [doubleRotateLeft, checkBalance_update (by rw [weight_update, weight_update]; omega),
            checkBalance_update (by omega), checkBalance_update (by omega), weight_update,
            weight_update]
          exact ⟨by omega, ⟨by omega, left, balLL⟩, ⟨by omega, balLR, balR⟩⟩
  next fine =>
    rw [isLeftHeavy_iff (by omega)] at fine
    rw [checkBalance_update small]
    exact ⟨⟨low, by omega⟩, left, right⟩

theorem checkBalance_rebalanceRight {lc rc : Tree K V A} {e : K × V} (cached : lc.Cached)
    (small : lc.weight + rc.weight ≤ 2 ^ 34)
    (left : checkBalance lc = true) (right : checkBalance rc = true)
    (low : 29 * rc.weight ≤ 71 * lc.weight) (high : 2059 * lc.weight ≤ 7941 * rc.weight) :
    checkBalance (rebalanceRight lc e rc) = true := by
  rw [rebalanceRight]
  split
  next heavy =>
    rw [isLeftHeavy_iff (by omega)] at heavy
    cases lc with
    | null =>
      have one : (null : Tree K V A).weight = 1 := rfl
      omega
    | node lsub root rsub s aug =>
      obtain ⟨same, cachedL, cachedR⟩ := cached
      have parts : (node lsub root rsub s aug).weight = lsub.weight + rsub.weight := by
        rw [same, weight_update]
      have own : s + 1 = lsub.weight + rsub.weight := parts
      rw [parts] at small low high heavy
      have rightPos := weight_pos rc
      obtain ⟨⟨near, far⟩, balL, balR⟩ := (checkBalance_node (by omega) (by omega)).mp left
      split
      next single =>
        rw [isSingleRotation_iff (by omega), if_pos rfl, own] at single
        rw [rotateRight, checkBalance_update (by rw [weight_update]; omega),
          checkBalance_update (by omega), weight_update]
        exact ⟨by omega, balL, ⟨by omega, balR, right⟩⟩
      next double =>
        rw [isSingleRotation_iff (by omega), if_pos rfl, own] at double
        cases rsub with
        | null =>
          have one : (null : Tree K V A).weight = 1 := rfl
          have := weight_pos lsub
          omega
        | node ll mid lr s' aug' =>
          obtain ⟨same', -, -⟩ := cachedR
          have parts' : (node ll mid lr s' aug').weight = ll.weight + lr.weight := by
            rw [same', weight_update]
          rw [parts'] at small low high heavy near far double
          obtain ⟨⟨near', far'⟩, balRL, balRR⟩ := (checkBalance_node (by omega) (by omega)).mp balR
          rw [doubleRotateRight, checkBalance_update (by rw [weight_update, weight_update]; omega),
            checkBalance_update (by omega), checkBalance_update (by omega), weight_update,
            weight_update]
          exact ⟨by omega, ⟨by omega, balL, balRL⟩, ⟨by omega, balRR, right⟩⟩
  next fine =>
    rw [isLeftHeavy_iff (by omega)] at fine
    rw [checkBalance_update small]
    exact ⟨⟨by omega, low⟩, left, right⟩

theorem Cached.weight_rightJoin {t1 t2 : Tree K V A} (left : t1.Cached) (k : K × V)
    (right : t2.Cached) : (Tree.rightJoin t2 k t1).weight = t1.weight + t2.weight := by
  rw [weight, (left.rightJoin k right).size_eq, entries_rightJoin, weight, weight, left.size_eq,
    right.size_eq, List.length_append, List.length_cons]
  omega

theorem Cached.weight_leftJoin {t1 t2 : Tree K V A} (left : t1.Cached) (k : K × V)
    (right : t2.Cached) : (Tree.leftJoin t1 k t2).weight = t1.weight + t2.weight := by
  rw [weight, (left.leftJoin k right).size_eq, entries_leftJoin, weight, weight, left.size_eq,
    right.size_eq, List.length_append, List.length_cons]
  omega

/-- The second tree goes down the right spine to where it is not too light. What
comes back on the way up has grown by its weight only. -/
theorem checkBalance_rightJoin {t1 t2 : Tree K V A} (k : K × V) (cachedL : t1.Cached)
    (cachedR : t2.Cached) (small : t1.weight + t2.weight ≤ 2 ^ 34)
    (left : checkBalance t1 = true) (right : checkBalance t2 = true)
    (lighter : 29 * t2.weight ≤ 71 * t1.weight) : checkBalance (rightJoin t2 k t1) = true := by
  induction t1 with
  | null =>
    have one : (null : Tree K V A).weight = 1 := rfl
    have positive := weight_pos t2
    rw [rightJoin, checkBalance_update small]
    exact ⟨⟨by omega, lighter⟩, left, right⟩
  | node lc e rc s aug ihl ihr =>
    obtain ⟨same, cachedLL, cachedLR⟩ := id cachedL
    have parts : (node lc e rc s aug).weight = lc.weight + rc.weight := by
      rw [same, weight_update]
    have grown := cachedLR.weight_rightJoin k cachedR
    rw [rightJoin]
    split
    next heavy =>
      rw [isLeftHeavy_iff (by omega), parts] at heavy
      rw [parts] at small
      obtain ⟨⟨near, far⟩, balL, balR⟩ := (checkBalance_node (by omega) (by omega)).mp left
      have joined := ihr cachedLR (by omega) balR (by omega)
      exact checkBalance_rebalanceLeft (cachedLR.rightJoin k cachedR) (by omega) balL joined
        (by omega) (by omega)
    next fine =>
      rw [isLeftHeavy_iff (by omega)] at fine
      rw [checkBalance_update small]
      exact ⟨⟨by omega, lighter⟩, left, right⟩

theorem checkBalance_leftJoin {t1 t2 : Tree K V A} (k : K × V) (cachedL : t1.Cached)
    (cachedR : t2.Cached) (small : t1.weight + t2.weight ≤ 2 ^ 34)
    (left : checkBalance t1 = true) (right : checkBalance t2 = true)
    (lighter : 29 * t1.weight ≤ 71 * t2.weight) : checkBalance (leftJoin t1 k t2) = true := by
  induction t2 with
  | null =>
    have one : (null : Tree K V A).weight = 1 := rfl
    have positive := weight_pos t1
    rw [leftJoin, checkBalance_update small]
    exact ⟨⟨lighter, by omega⟩, left, right⟩
  | node lc e rc s aug ihl ihr =>
    obtain ⟨same, cachedRL, cachedRR⟩ := id cachedR
    have parts : (node lc e rc s aug).weight = lc.weight + rc.weight := by
      rw [same, weight_update]
    have grown := cachedL.weight_leftJoin k cachedRL
    rw [leftJoin]
    split
    next heavy =>
      rw [isLeftHeavy_iff (by omega), parts] at heavy
      rw [parts] at small
      obtain ⟨⟨near, far⟩, balL, balR⟩ := (checkBalance_node (by omega) (by omega)).mp right
      have joined := ihl cachedRL (by omega) balL (by omega)
      exact checkBalance_rebalanceRight (cachedL.leftJoin k cachedRL) (by omega) joined balR
        (by omega) (by omega)
    next fine =>
      rw [isLeftHeavy_iff (by omega)] at fine
      rw [checkBalance_update small]
      exact ⟨⟨lighter, by omega⟩, left, right⟩

theorem checkBalance_nodeJoin {t1 t2 : Tree K V A} (k : K × V) (cachedL : t1.Cached)
    (cachedR : t2.Cached) (small : t1.weight + t2.weight ≤ 2 ^ 34)
    (left : checkBalance t1 = true) (right : checkBalance t2 = true) :
    checkBalance (nodeJoin t1 t2 k) = true := by
  have leftPos := weight_pos t1
  rw [nodeJoin]
  split
  next heavy =>
    rw [isLeftHeavy_iff (by omega)] at heavy
    exact checkBalance_rightJoin k cachedL cachedR small left right (by omega)
  next fine =>
    rw [isLeftHeavy_iff (by omega)] at fine
    split
    next heavy =>
      rw [isLeftHeavy_iff (by omega)] at heavy
      exact checkBalance_leftJoin k cachedL cachedR small left right (by omega)
    next fine' =>
      rw [isLeftHeavy_iff (by omega)] at fine'
      rw [checkBalance_update small]
      exact ⟨⟨by omega, by omega⟩, left, right⟩

end Balance

-- Everything that follows uses a join through its entries, its fields and its balance.
attribute [irreducible] nodeJoin

end Tree

end Zeppelin.Aspen
