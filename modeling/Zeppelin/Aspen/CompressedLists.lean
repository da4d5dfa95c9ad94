import Zeppelin.Aspen.CompressedIter
import Zeppelin.Machine.Loop
import Zeppelin.Ordered.SetLists

/-! Set operations on compressed nodes, from `compressed_lists.h`. Each one walks
its nodes with iterators and writes a new node; the results are the operations
on the lists that the nodes hold. -/
namespace Zeppelin.Aspen

open Loop

/-- One operand of a merge: the values left, the current one and the rest. -/
structure Side where
  left : Nat
  value : Nat
  it : ReadIter

namespace Side

def begin (it : ReadIter) (size : Nat) : Option Side :=
  it.next.map fun (value, it) => ⟨size, value, it⟩

/-- `l_i++; if (l_i < l_size) { lv = l_it.next(); }` -/
def advance (s : Side) : Option Side :=
  if 1 < s.left then s.it.next.map fun (value, it) => ⟨s.left - 1, value, it⟩
  else some { s with left := s.left - 1 }

/-- These values are left of the operand, and others after it. -/
structure Reads (s : Side) (values others : List Nat) : Prop where
  left_eq : s.left = values.length
  value_eq : ∀ value ∈ values.head?, s.value = value
  yields : s.it.Yields (values.tail ++ others)

end Side

/-- The variables of a loop over two operands. -/
structure Merge (Out : Type) where
  l : Side
  r : Side
  out : Out

namespace Merge

variable {Out : Type}

def both (s : Merge Out) : Bool := 0 < s.l.left && 0 < s.r.left

/-- The body of `while (l_i < l_size && r_i < r_size)`, with what it does to a
value of the left, of the right and of both operands. -/
def body (onLeft onRight onBoth : Out → Nat → Out) (s : Merge Out) : Option (Merge Out) :=
  if s.l.value < s.r.value then
    s.l.advance.map fun l => { s with l, out := onLeft s.out s.l.value }
  else if s.r.value < s.l.value then
    s.r.advance.map fun r => { s with r, out := onRight s.out s.r.value }
  else
    s.l.advance.bind fun l => s.r.advance.map fun r => ⟨l, r, onBoth s.out s.l.value⟩

def drainLeft (s : Merge WriteIter) : Option (Merge WriteIter) :=
  s.l.advance.map fun l => { s with l, out := s.out.compressNext s.l.value }

def drainRight (s : Merge WriteIter) : Option (Merge WriteIter) :=
  s.r.advance.map fun r => { s with r, out := s.out.compressNext s.r.value }

end Merge

/-- `union_its`: the new node, and the iterators after it. -/
def unionIts (lIt : ReadIter) (lSize : Nat) (rIt : ReadIter) (rSize src : Nat) :
    Option (Option CompressedNode × ReadIter × ReadIter) := do
  let l ← Side.begin lIt lSize
  let r ← Side.begin rIt rSize
  let fuel := lSize + rSize + 1
  let body := Merge.body .compressNext .compressNext .compressNext
  let s ← whileLoop Merge.both body fuel ⟨l, r, .create src (lSize + rSize)⟩
  let s ← whileLoop (fun s => 0 < s.l.left) Merge.drainLeft fuel s
  let s ← whileLoop (fun s => 0 < s.r.left) Merge.drainRight fuel s
  return (s.out.finish, s.l.it, s.r.it)

/-- `union_nodes`. -/
def unionNodes (l r : Option CompressedNode) (src : Nat) : Option (Option CompressedNode) :=
  if l.isSome && r.isNone then some (copyNode l)
  else if r.isSome && l.isNone then some (copyNode r)
  else
    let lIt := ReadIter.create l src
    let rIt := ReadIter.create r src
    (unionIts lIt lIt.deg rIt rIt.deg src).map Prod.fst

/-- `difference_its`: what is in the right operand and not in the left. -/
def differenceIts (lIt : ReadIter) (lSize : Nat) (rIt : ReadIter) (rSize src : Nat) :
    Option (Option CompressedNode × ReadIter × ReadIter) := do
  let l ← Side.begin lIt lSize
  let r ← Side.begin rIt rSize
  let fuel := lSize + rSize + 1
  let body := Merge.body (fun w _ => w) .compressNext (fun w _ => w)
  let s ← whileLoop Merge.both body fuel ⟨l, r, .create src rSize⟩
  let s ← whileLoop (fun s => 0 < s.r.left) Merge.drainRight fuel s
  return (s.out.finish, s.l.it, s.r.it)

/-- `difference`. -/
def differenceNodes (l r : Option CompressedNode) (src : Nat) : Option (Option CompressedNode) :=
  if l.isSome && r.isNone then some none
  else if r.isSome && l.isNone then some (copyNode r)
  else
    let lIt := ReadIter.create l src
    let rIt := ReadIter.create r src
    (differenceIts lIt lIt.deg rIt rIt.deg src).map Prod.fst

/-- `union_it_and_node`: the new node, and the iterator after it. -/
def unionItAndNode (it : ReadIter) (lSize : Nat) (rNode : Option CompressedNode) (src : Nat) :
    Option (Option CompressedNode × ReadIter) :=
  let rIt := ReadIter.create rNode src
  (unionIts it lSize rIt rIt.deg src).map fun (node, it, _) => (node, it)

/-- `difference_it_and_node`: the new node, and the iterator after it. -/
def differenceItAndNode (it : ReadIter) (lSize : Nat) (rNode : Option CompressedNode) (src : Nat) :
    Option (Option CompressedNode × ReadIter) :=
  let rIt := ReadIter.create rNode src
  (differenceIts it lSize rIt rIt.deg src).map fun (node, it, _) => (node, it)

/-- `intersect` on iterators: the number of common values. -/
def intersectIts (lIt : ReadIter) (lSize : Nat) (rIt : ReadIter) (rSize : Nat) : Option Nat := do
  let l ← Side.begin lIt lSize
  let r ← Side.begin rIt rSize
  let body := Merge.body (fun ct _ => ct) (fun ct _ => ct) (fun ct _ => ct + 1)
  let s ← whileLoop Merge.both body (lSize + rSize + 1) ⟨l, r, 0⟩
  return s.out

/-- `intersect`. -/
def intersectNodes (l : Option CompressedNode) (lSrc : Nat) (r : Option CompressedNode)
    (rSrc : Nat) : Option Nat :=
  if l.isSome && r.isSome then
    let lIt := ReadIter.create l lSrc
    let rIt := ReadIter.create r rSrc
    intersectIts lIt lIt.deg rIt rIt.deg
  else some 0

/-- `for (size_t i=0; i<count; i++) w.compress_next(it.next());` -/
def copyLoop : Nat → ReadIter → WriteIter → Option (WriteIter × ReadIter)
  | 0, it, w => some (w, it)
  | count + 1, it, w => it.next.bind fun (ngh, it) => copyLoop count it (w.compressNext ngh)

/-- `copy_from_it`. -/
def copyFromIt (it : ReadIter) (deg src : Nat) : Option (Option CompressedNode × ReadIter) :=
  (copyLoop deg it (.create src deg)).map fun (w, it) => (w.finish, it)

/-- The first loop of `split_node`: the values below the key, and whether it is there. -/
def countBelow (splitKey : Nat) : Nat → ReadIter → Option (Nat × Bool)
  | 0, _ => some (0, false)
  | left + 1, it => it.next.bind fun (ngh, it) =>
    if ngh = splitKey then some (0, true)
    else if splitKey < ngh then some (0, false)
    else (countBelow splitKey left it).map fun (numLt, found) => (numLt + 1, found)

/-- `if (count) { ... }` around the copy of one part of a split node. -/
def copyPart (it : ReadIter) (count src : Nat) : Option (Option CompressedNode × ReadIter) :=
  if count = 0 then some (none, it) else copyFromIt it count src

/-- `split_node`. -/
def splitNode (node : Option CompressedNode) (src splitKey : Nat) :
    Option (Option CompressedNode × Option CompressedNode × Bool) :=
  match node with
  | none => some (none, none, false)
  | some _ => do
    let it := ReadIter.create node src
    let (numLt, found) ← countBelow splitKey it.deg it
    let numGt := it.deg - numLt - found.toNat
    let (lt, it) ← copyPart it numLt src
    let (_, it) ← if found then it.next else some (0, it)
    let (gt, _) ← copyPart it numGt src
    return (lt, gt, found)

/-- The loop of `contains` over the values left. -/
def containsLoop (key : Nat) : Nat → ReadIter → Option Bool
  | 0, _ => some false
  | left + 1, it => it.next.bind fun (ngh, it) =>
    if ngh = key then some true else if key < ngh then some false else containsLoop key left it

/-- `contains`. -/
def containsNode (l : Option CompressedNode) (src key : Nat) : Option Bool :=
  let it := ReadIter.create l src
  if l.isSome then containsLoop key it.deg it else some false

def uintVMax : Nat := 2 ^ 32 - 1

/-- `first_and_last_keys`. -/
def firstAndLastKeys (node : Option CompressedNode) (src : Nat) : Option (Nat × Nat) :=
  match node with
  | none => some (uintVMax, uintVMax)
  | some n => (ReadIter.create node src).next.map fun (first, _) => (first, n.lastNgh)

namespace Side

theorem begin_reads {it : ReadIter} {ngh : Nat} {values others : List Nat}
    (yields : it.Yields (ngh :: values ++ others)) :
    ∃ s, begin it (ngh :: values).length = some s ∧ s.Reads (ngh :: values) others := by
  obtain ⟨after, first, rest⟩ := yields
  refine ⟨⟨(ngh :: values).length, ngh, after⟩, ?_, ⟨rfl, ?_, rest⟩⟩
  · rw [begin, first]
    rfl
  · rintro value ⟨⟩
    rfl

theorem Reads.advance {s : Side} {ngh : Nat} {values others : List Nat}
    (reads : s.Reads (ngh :: values) others) :
    ∃ t, s.advance = some t ∧ t.Reads values others ∧ t.left < s.left := by
  have left := reads.left_eq
  cases values with
  | nil =>
    have one : s.left = 1 := left
    have last : ¬1 < s.left := by omega
    refine ⟨{ s with left := s.left - 1 }, if_neg last, ⟨?_, ?_, reads.yields⟩, ?_⟩
    · show s.left - 1 = 0
      rw [one]
    · rintro value ⟨⟩
    · show s.left - 1 < s.left
      omega
  | cons value values =>
    have more : 1 < s.left := by rw [left]; simp
    obtain ⟨after, first, rest⟩ := reads.yields
    refine ⟨⟨s.left - 1, value, after⟩, ?_, ⟨?_, ?_, rest⟩, ?_⟩
    · rw [Side.advance, if_pos more, first]
      rfl
    · show s.left - 1 = (value :: values).length
      rw [left]
      rfl
    · rintro v ⟨⟩
      rfl
    · show s.left - 1 < s.left
      omega

theorem Reads.value_cons {s : Side} {ngh : Nat} {values others : List Nat}
    (reads : s.Reads (ngh :: values) others) : s.value = ngh := reads.value_eq ngh rfl

theorem Reads.exists_cons {s : Side} {values others : List Nat} (reads : s.Reads values others)
    (more : 0 < s.left) : ∃ ngh rest, values = ngh :: rest := by
  cases values with
  | nil =>
    rw [reads.left_eq] at more
    cases more
  | cons ngh rest => exact ⟨ngh, rest, rfl⟩

theorem Reads.eq_nil {s : Side} {values others : List Nat} (reads : s.Reads values others)
    (none : s.left = 0) : values = [] := by
  rw [reads.left_eq] at none
  exact List.eq_nil_of_length_eq_zero none

end Side

namespace Merge

section Body

variable {Out Result : Type} {onLeft onRight onBoth : Out → Nat → Out}
  {result : List Nat → List Nat → Out → Result} {lOthers rOthers : List Nat} {target : Result}

/-- What is left of the operands takes the output to the target. -/
def Towards (result : List Nat → List Nat → Out → Result) (lOthers rOthers : List Nat)
    (target : Result) (s : Merge Out) : Prop :=
  ∃ ls rs, s.l.Reads ls lOthers ∧ s.r.Reads rs rOthers ∧ result ls rs s.out = target

/-- One round of the loop, for a result that is computed from the front. -/
theorem body_towards
    (step : ∀ a ls b rs out, result (a :: ls) (b :: rs) out =
      if a < b then result ls (b :: rs) (onLeft out a)
      else if b < a then result (a :: ls) rs (onRight out b)
      else result ls rs (onBoth out a))
    {s : Merge Out} (towards : Towards result lOthers rOthers target s) (more : s.both = true) :
    ∃ t, body onLeft onRight onBoth s = some t ∧ Towards result lOthers rOthers target t ∧
      t.l.left + t.r.left < s.l.left + s.r.left := by
  obtain ⟨ls, rs, left, right, reaches⟩ := towards
  simp only [both, Bool.and_eq_true, decide_eq_true_eq] at more
  obtain ⟨a, ls, rfl⟩ := left.exists_cons more.1
  obtain ⟨b, rs, rfl⟩ := right.exists_cons more.2
  obtain ⟨l, advanceL, leftL, lessL⟩ := left.advance
  obtain ⟨r, advanceR, rightR, lessR⟩ := right.advance
  rw [step] at reaches
  rw [body, left.value_cons, right.value_cons, advanceL, advanceR]
  by_cases less : a < b
  · rw [if_pos less] at reaches
    rw [if_pos less]
    exact ⟨_, rfl, ⟨ls, b :: rs, leftL, right, reaches⟩, Nat.add_lt_add_right lessL _⟩
  · rw [if_neg less] at reaches ⊢
    by_cases greater : b < a
    · rw [if_pos greater] at reaches
      rw [if_pos greater]
      exact ⟨_, rfl, ⟨a :: ls, rs, left, rightR, reaches⟩, Nat.add_lt_add_left lessR _⟩
    · rw [if_neg greater] at reaches ⊢
      exact ⟨_, rfl, ⟨ls, rs, leftL, rightR, reaches⟩, Nat.add_lt_add lessL lessR⟩

/-- The whole loop ends with one operand used up. -/
theorem loop_towards (onLeft onRight onBoth : Out → Nat → Out)
    (result : List Nat → List Nat → Out → Result)
    (step : ∀ a ls b rs out, result (a :: ls) (b :: rs) out =
      if a < b then result ls (b :: rs) (onLeft out a)
      else if b < a then result (a :: ls) rs (onRight out b)
      else result ls rs (onBoth out a))
    {fuel : Nat} {s : Merge Out} (towards : Towards result lOthers rOthers target s)
    (enough : s.l.left + s.r.left < fuel) :
    ∃ t ls rs, whileLoop both (body onLeft onRight onBoth) fuel s = some t ∧
      t.l.Reads ls lOthers ∧ t.r.Reads rs rOthers ∧ (ls = [] ∨ rs = []) ∧
      result ls rs t.out = target ∧ t.l.left + t.r.left ≤ s.l.left + s.r.left := by
  obtain ⟨t, ended, ⟨ls, rs, left, right, reaches⟩, stops, fewer⟩ :=
    whileLoop_reaches (fun s : Merge Out => s.l.left + s.r.left)
      (fun s towards more => body_towards step towards more) towards enough
  refine ⟨t, ls, rs, ended, left, right, ?_, reaches, fewer⟩
  simp only [both, Bool.and_eq_false_iff, decide_eq_false_iff_not, Nat.not_lt, Nat.le_zero] at stops
  exact stops.imp left.eq_nil right.eq_nil

end Body

theorem drainLeft_loop (fuel : Nat) {s : Merge WriteIter} {ls lOthers : List Nat}
    (left : s.l.Reads ls lOthers) (enough : s.l.left < fuel) :
    ∃ t, whileLoop (fun s => 0 < s.l.left) drainLeft fuel s = some t ∧ t.l.Reads [] lOthers ∧
      t.r = s.r ∧ t.out = s.out.compressAll ls := by
  have decreases : ∀ u : Merge WriteIter, (∃ more, u.l.Reads more lOthers ∧ u.r = s.r ∧
      u.out.compressAll more = s.out.compressAll ls) → decide (0 < u.l.left) = true →
      ∃ t, drainLeft u = some t ∧ (∃ more, t.l.Reads more lOthers ∧ t.r = s.r ∧
        t.out.compressAll more = s.out.compressAll ls) ∧ t.l.left < u.l.left := by
    rintro u ⟨more, reads, same, out⟩ continues
    obtain ⟨ngh, more, rfl⟩ := reads.exists_cons (of_decide_eq_true continues)
    obtain ⟨l, advanced, rest, less⟩ := reads.advance
    refine ⟨{ u with l, out := u.out.compressNext ngh }, ?_, ⟨more, rest, same, out⟩, less⟩
    rw [drainLeft, advanced, reads.value_cons]
    rfl
  obtain ⟨t, ended, ⟨more, reads, same, out⟩, stops, -⟩ :=
    whileLoop_reaches (fun u : Merge WriteIter => u.l.left) decreases ⟨ls, left, rfl, rfl⟩ enough
  have none : t.l.left = 0 := by simpa using stops
  obtain rfl := reads.eq_nil none
  exact ⟨t, ended, reads, same, out⟩

theorem drainRight_loop (fuel : Nat) {s : Merge WriteIter} {rs rOthers : List Nat}
    (right : s.r.Reads rs rOthers) (enough : s.r.left < fuel) :
    ∃ t, whileLoop (fun s => 0 < s.r.left) drainRight fuel s = some t ∧ t.r.Reads [] rOthers ∧
      t.l = s.l ∧ t.out = s.out.compressAll rs := by
  have decreases : ∀ u : Merge WriteIter, (∃ more, u.r.Reads more rOthers ∧ u.l = s.l ∧
      u.out.compressAll more = s.out.compressAll rs) → decide (0 < u.r.left) = true →
      ∃ t, drainRight u = some t ∧ (∃ more, t.r.Reads more rOthers ∧ t.l = s.l ∧
        t.out.compressAll more = s.out.compressAll rs) ∧ t.r.left < u.r.left := by
    rintro u ⟨more, reads, same, out⟩ continues
    obtain ⟨ngh, more, rfl⟩ := reads.exists_cons (of_decide_eq_true continues)
    obtain ⟨r, advanced, rest, less⟩ := reads.advance
    refine ⟨{ u with r, out := u.out.compressNext ngh }, ?_, ⟨more, rest, same, out⟩, less⟩
    rw [drainRight, advanced, reads.value_cons]
    rfl
  obtain ⟨t, ended, ⟨more, reads, same, out⟩, stops, -⟩ :=
    whileLoop_reaches (fun u : Merge WriteIter => u.r.left) decreases ⟨rs, right, rfl, rfl⟩ enough
  have none : t.r.left = 0 := by simpa using stops
  obtain rfl := reads.eq_nil none
  exact ⟨t, ended, reads, same, out⟩

end Merge

section Merges

variable {lIt rIt : ReadIter} {a b : Nat} {ls rs lOthers rOthers : List Nat} {src : Nat}

/-- The iterators are at what follows the merged values, so that a caller can go
on with them. -/
theorem unionIts_eq (src : Nat) (left : lIt.Yields (a :: ls ++ lOthers)) (right : rIt.Yields (b :: rs ++ rOthers)) :
    ∃ lAfter rAfter, unionIts lIt (a :: ls).length rIt (b :: rs).length src =
        some (((WriteIter.create src ((a :: ls).length + (b :: rs).length)).compressAll
          (Ordered.union (a :: ls) (b :: rs))).finish, lAfter, rAfter) ∧
      lAfter.Yields lOthers ∧ rAfter.Yields rOthers := by
  obtain ⟨l, beginL, readsL⟩ := Side.begin_reads left
  obtain ⟨r, beginR, readsR⟩ := Side.begin_reads right
  have sizes : l.left + r.left < (a :: ls).length + (b :: rs).length + 1 := by
    rw [readsL.left_eq, readsR.left_eq]
    exact Nat.lt_succ_self _
  obtain ⟨s, ls', rs', first, leftS, rightS, one, out, fewer⟩ := Merge.loop_towards
    .compressNext .compressNext .compressNext
    (fun ls rs (w : WriteIter) => w.compressAll (Ordered.union ls rs))
    (by
      intro a ls b rs w
      rw [Ordered.union]
      split
      · rfl
      · split
        · rfl
        · rfl)
    (s := ⟨l, r, .create src ((a :: ls).length + (b :: rs).length)⟩)
    ⟨a :: ls, b :: rs, readsL, readsR, rfl⟩ sizes
  simp only at fewer
  obtain ⟨t, second, leftT, rightT, outT⟩ := Merge.drainLeft_loop
    ((a :: ls).length + (b :: rs).length + 1) leftS (by omega)
  rw [← rightT] at rightS
  obtain ⟨u, third, rightU, leftU, outU⟩ := Merge.drainRight_loop
    ((a :: ls).length + (b :: rs).length + 1) rightS (by rw [rightT]; omega)
  have whole : (s.out.compressAll ls').compressAll rs' =
      s.out.compressAll (Ordered.union ls' rs') := by
    rcases one with rfl | rfl
    · rw [Ordered.union]
      rfl
    · rw [Ordered.union_nil_right]
      rfl
  refine ⟨u.l.it, u.r.it, ?_, ?_, ?_⟩
  · simp only [unionIts, beginL, beginR, first, second, third, bind, Option.bind_some, pure]
    rw [outU, outT, whole, out]
  · rw [leftU]
    exact leftT.yields
  · exact rightU.yields

/-- The loop ends with the right operand, and then the left iterator may be
before the values that follow its operand. -/
theorem differenceIts_eq (src : Nat) (left : lIt.Yields (a :: ls ++ lOthers))
    (right : rIt.Yields (b :: rs ++ rOthers)) :
    ∃ lAfter rAfter, differenceIts lIt (a :: ls).length rIt (b :: rs).length src =
        some (((WriteIter.create src (b :: rs).length).compressAll
          (Ordered.difference (a :: ls) (b :: rs))).finish, lAfter, rAfter) ∧
      lAfter.Yields ((Ordered.leftover (a :: ls) (b :: rs)).tail ++ lOthers) := by
  obtain ⟨l, beginL, readsL⟩ := Side.begin_reads left
  obtain ⟨r, beginR, readsR⟩ := Side.begin_reads right
  have sizes : l.left + r.left < (a :: ls).length + (b :: rs).length + 1 := by
    rw [readsL.left_eq, readsR.left_eq]
    exact Nat.lt_succ_self _
  obtain ⟨s, ls', rs', first, leftS, rightS, one, reaches, fewer⟩ := Merge.loop_towards
    (fun w _ => w) .compressNext (fun w _ => w)
    (fun ls rs (w : WriteIter) =>
      (w.compressAll (Ordered.difference ls rs), Ordered.leftover ls rs))
    (by
      intro a ls b rs w
      rw [Ordered.difference, Ordered.leftover]
      split
      · rfl
      · split
        · rfl
        · rfl)
    (s := ⟨l, r, .create src (b :: rs).length⟩) ⟨a :: ls, b :: rs, readsL, readsR, rfl⟩ sizes
  obtain ⟨out, position⟩ := Prod.mk.inj reaches
  simp only at fewer
  obtain ⟨t, second, rightT, leftT, outT⟩ := Merge.drainRight_loop
    ((a :: ls).length + (b :: rs).length + 1) rightS (by omega)
  have whole : s.out.compressAll rs' = s.out.compressAll (Ordered.difference ls' rs') := by
    rcases one with rfl | rfl
    · rw [Ordered.difference]
    · rw [Ordered.difference_nil_right]
  have stopped : Ordered.leftover ls' rs' = ls' := by
    rcases one with rfl | rfl
    · rw [Ordered.leftover]
    · exact Ordered.leftover_nil_right ls'
  refine ⟨t.l.it, t.r.it, ?_, ?_⟩
  · simp only [differenceIts, beginL, beginR, first, second, bind, Option.bind_some, pure]
    rw [outT, whole, out]
  · rw [leftT, ← position, stopped]
    exact leftS.yields

theorem intersectIts_eq (left : lIt.Yields (a :: ls)) (right : rIt.Yields (b :: rs)) :
    intersectIts lIt (a :: ls).length rIt (b :: rs).length =
      some (Ordered.common (a :: ls) (b :: rs)).length := by
  rw [← List.append_nil (a :: ls)] at left
  rw [← List.append_nil (b :: rs)] at right
  obtain ⟨l, beginL, readsL⟩ := Side.begin_reads left
  obtain ⟨r, beginR, readsR⟩ := Side.begin_reads right
  have sizes : l.left + r.left < (a :: ls).length + (b :: rs).length + 1 := by
    rw [readsL.left_eq, readsR.left_eq]
    exact Nat.lt_succ_self _
  obtain ⟨s, ls', rs', first, leftS, rightS, one, out, -⟩ := Merge.loop_towards
    (fun ct _ => ct) (fun ct _ => ct) (fun ct _ => ct + 1)
    (fun ls rs ct => ct + (Ordered.common ls rs).length)
    (by
      intro a ls b rs ct
      rw [Ordered.common]
      split
      · rfl
      · split
        · rfl
        · rw [List.length_cons]
          omega)
    (s := ⟨l, r, 0⟩) ⟨a :: ls, b :: rs, readsL, readsR, rfl⟩ sizes
  have none : Ordered.common ls' rs' = [] := by
    rcases one with rfl | rfl
    · rw [Ordered.common]
    · cases ls' with
      | nil => rw [Ordered.common]
      | cons a ls => rw [Ordered.common]
  simp only [none, List.length_nil, Nat.add_zero, Nat.zero_add] at out
  simp only [intersectIts, beginL, beginR, first, bind, Option.bind_some, pure, out]

end Merges

section Nodes

variable {src : Nat} {l r : Option CompressedNode} {ls rs : List Nat}

theorem Holds.isSome (holds : Holds src l ls) (some : ls ≠ []) : l.isSome := by
  cases l with
  | none => exact absurd holds some
  | some node => rfl

theorem Holds.eq_none (holds : Holds src l []) : l = none := by
  cases l with
  | none => rfl
  | some node => exact absurd rfl holds.1

/-- The union of two nodes, of which at least one is there. -/
theorem unionNodes_holds (source : src < 2 ^ 32) (left : Holds src l ls) (right : Holds src r rs)
    (validL : Neighbors ls) (validR : Neighbors rs) (present : ls ≠ [] ∨ rs ≠ [])
    (small : (Ordered.union ls rs).length < 2 ^ 16) :
    ∃ node, unionNodes l r src = some node ∧ Holds src node (Ordered.union ls rs) := by
  cases ls with
  | nil =>
    obtain rfl := left.eq_none
    have there := right.isSome (present.resolve_left fun h => h rfl)
    refine ⟨copyNode r, by simp [unionNodes, there], ?_⟩
    rw [Ordered.union]
    exact right.copy
  | cons a ls =>
    have thereL := left.isSome (List.cons_ne_nil a ls)
    cases rs with
    | nil =>
      obtain rfl := right.eq_none
      refine ⟨copyNode l, by simp [unionNodes, thereL], ?_⟩
      rw [Ordered.union_nil_right]
      exact left.copy
    | cons b rs =>
      obtain ⟨lNode, rfl⟩ := Option.isSome_iff_exists.mp thereL
      obtain ⟨rNode, rfl⟩ := Option.isSome_iff_exists.mp (right.isSome (List.cons_ne_nil b rs))
      have yieldsL := left.yields source validL
      have yieldsR := right.yields source validR
      rw [← List.append_nil (a :: ls)] at yieldsL
      rw [← List.append_nil (b :: rs)] at yieldsR
      obtain ⟨lAfter, rAfter, done, -, -⟩ := unionIts_eq src yieldsL yieldsR
      refine ⟨_, ?_, holds_finish ((a :: ls).length + (b :: rs).length) small⟩
      simp only [unionNodes, Option.isSome_some, Option.isNone_some, Bool.and_false,
        Bool.false_eq_true, if_false, left.deg_eq, right.deg_eq, done, Option.map_some]

theorem differenceNodes_holds (source : src < 2 ^ 32) (left : Holds src l ls)
    (right : Holds src r rs) (validL : Neighbors ls) (validR : Neighbors rs)
    (present : ls ≠ [] ∨ rs ≠ []) (small : rs.length < 2 ^ 16) :
    ∃ node, differenceNodes l r src = some node ∧ Holds src node (Ordered.difference ls rs) := by
  cases ls with
  | nil =>
    obtain rfl := left.eq_none
    have there := right.isSome (present.resolve_left fun h => h rfl)
    refine ⟨copyNode r, by simp [differenceNodes, there], ?_⟩
    rw [Ordered.difference]
    exact right.copy
  | cons a ls =>
    have thereL := left.isSome (List.cons_ne_nil a ls)
    cases rs with
    | nil =>
      obtain rfl := right.eq_none
      refine ⟨none, by simp [differenceNodes, thereL], ?_⟩
      rw [Ordered.difference_nil_right]
      rfl
    | cons b rs =>
      obtain ⟨lNode, rfl⟩ := Option.isSome_iff_exists.mp thereL
      obtain ⟨rNode, rfl⟩ := Option.isSome_iff_exists.mp (right.isSome (List.cons_ne_nil b rs))
      have yieldsL := left.yields source validL
      have yieldsR := right.yields source validR
      rw [← List.append_nil (a :: ls)] at yieldsL
      rw [← List.append_nil (b :: rs)] at yieldsR
      obtain ⟨lAfter, rAfter, done, -⟩ := differenceIts_eq src yieldsL yieldsR
      have fewer := (Ordered.difference_sublist (a :: ls) (b :: rs)).length_le
      refine ⟨_, ?_, holds_finish (b :: rs).length (Nat.lt_of_le_of_lt fewer small)⟩
      simp only [differenceNodes, Option.isSome_some, Option.isNone_some, Bool.and_false,
        Bool.false_eq_true, if_false, left.deg_eq, right.deg_eq, done, Option.map_some]

/-- Common neighbours of two sources. -/
theorem intersectNodes_eq {rSrc : Nat} (source : src < 2 ^ 32) (rSource : rSrc < 2 ^ 32)
    (left : Holds src l ls) (right : Holds rSrc r rs) (validL : Neighbors ls)
    (validR : Neighbors rs) :
    intersectNodes l src r rSrc = some (Ordered.common ls rs).length := by
  cases ls with
  | nil =>
    obtain rfl := left.eq_none
    rw [Ordered.common]
    rfl
  | cons a ls =>
    cases rs with
    | nil =>
      obtain rfl := right.eq_none
      rw [Ordered.common]
      simp [intersectNodes]
    | cons b rs =>
      have thereL := left.isSome (List.cons_ne_nil a ls)
      have thereR := right.isSome (List.cons_ne_nil b rs)
      have done := intersectIts_eq (left.yields source validL) (right.yields rSource validR)
      rw [intersectNodes, thereL, thereR]
      simp only [Bool.and_self, if_true, left.deg_eq, right.deg_eq, done]

theorem copyLoop_eq {it : ReadIter} {values others : List Nat} (w : WriteIter)
    (yields : it.Yields (values ++ others)) :
    ∃ after, copyLoop values.length it w = some (w.compressAll values, after) ∧
      after.Yields others := by
  induction values generalizing it w with
  | nil => exact ⟨it, rfl, yields⟩
  | cons ngh values ih =>
    obtain ⟨next, first, rest⟩ := yields
    obtain ⟨after, done, yields⟩ := ih (w.compressNext ngh) rest
    refine ⟨after, ?_, yields⟩
    rw [List.length_cons, copyLoop, first]
    exact done

theorem copyFromIt_eq (src : Nat) {it : ReadIter} {values others : List Nat}
    (yields : it.Yields (values ++ others)) :
    ∃ after, copyFromIt it values.length src =
        some (((WriteIter.create src values.length).compressAll values).finish, after) ∧
      after.Yields others := by
  obtain ⟨after, done, rest⟩ := copyLoop_eq (WriteIter.create src values.length) yields
  exact ⟨after, by rw [copyFromIt, done]; rfl, rest⟩

theorem copyPart_holds (src : Nat) {it : ReadIter} (values : List Nat) {others : List Nat}
    (yields : it.Yields (values ++ others)) (small : values.length < 2 ^ 16) :
    ∃ node after, copyPart it values.length src = some (node, after) ∧ Holds src node values ∧
      after.Yields others := by
  cases values with
  | nil => exact ⟨none, it, rfl, rfl, yields⟩
  | cons ngh values =>
    obtain ⟨after, done, rest⟩ := copyFromIt_eq src yields
    refine ⟨_, after, ?_, holds_finish (ngh :: values).length small, rest⟩
    rw [copyPart, if_neg (List.length_eq_zero_iff.not.mpr (List.cons_ne_nil ngh values)), done]

theorem countBelow_eq (key : Nat) {it : ReadIter} {values : List Nat}
    (sorted : values.Pairwise (· < ·)) (yields : it.Yields values) :
    countBelow key values.length it =
      some ((values.filter (· < key)).length, decide (key ∈ values)) := by
  induction values generalizing it with
  | nil => rfl
  | cons ngh values ih =>
    obtain ⟨after, first, rest⟩ := yields
    have above : ∀ x ∈ values, ngh < x := fun x => List.rel_of_pairwise_cons sorted
    rw [List.length_cons, countBelow, first, Option.bind_some]
    by_cases same : ngh = key
    · subst same
      have none : (ngh :: values).filter (· < ngh) = [] := by
        simpa using fun x member => (above x member).le
      simp [none]
    · by_cases past : key < ngh
      · have none : (ngh :: values).filter (· < key) = [] := by
          simpa using ⟨past.le, fun x member => (past.trans (above x member)).le⟩
        have absent : key ∉ ngh :: values := by
          simpa [Ne.symm same] using fun member => absurd (above key member) past.not_gt
        simp [same, past, none, absent]
      · have less : ngh < key := by omega
        simp only [if_neg same, if_neg past, ih sorted.of_cons rest, Option.map_some,
          List.filter_cons, decide_eq_true less, if_true, List.length_cons, List.mem_cons,
          Ne.symm same, false_or]

/-- A node is split into what is below and what is above the key. -/
theorem splitNode_holds {key : Nat} (source : src < 2 ^ 32) (holds : Holds src l ls)
    (valid : Neighbors ls) (small : ls.length < 2 ^ 16) :
    ∃ lt gt, splitNode l src key = some (lt, gt, decide (key ∈ ls)) ∧
      Holds src lt (ls.filter (· < key)) ∧ Holds src gt (ls.filter (key < ·)) := by
  cases l with
  | none =>
    obtain rfl : ls = [] := holds
    exact ⟨none, none, rfl, rfl, rfl⟩
  | some node =>
    have whole := Ordered.eq_below_append_above valid.ascending key
    have yields := holds.yields source valid
    have counted := countBelow_eq key valid.ascending yields
    have below := (List.filter_sublist (l := ls) (p := (· < key))).length_le
    have above := (List.filter_sublist (l := ls) (p := (key < ·))).length_le
    rw [whole, List.append_assoc] at yields
    obtain ⟨lt, it, first, holdsLt, middle⟩ := copyPart_holds src _ yields (by omega)
    refine ⟨lt, ?_⟩
    by_cases member : key ∈ ls
    · rw [if_pos member] at middle whole
      obtain ⟨it, second, last⟩ := middle
      rw [← List.append_nil (ls.filter (key < ·))] at last
      obtain ⟨gt, after, third, holdsGt, -⟩ := copyPart_holds src
        (ls.filter (key < ·)) last (by omega)
      refine ⟨gt, ?_, holdsLt, holdsGt⟩
      have lengths := congrArg List.length whole
      simp only [List.length_append, List.length_singleton] at lengths
      have rest : ls.length - (ls.filter (· < key)).length - 1 = (ls.filter (key < ·)).length := by
        omega
      simp [splitNode, holds.deg_eq, counted, first, member, second, rest, third]
    · rw [if_neg member] at middle whole
      rw [← List.append_nil (ls.filter (key < ·))] at middle
      obtain ⟨gt, after, third, holdsGt, -⟩ := copyPart_holds src
        (ls.filter (key < ·)) middle (by omega)
      refine ⟨gt, ?_, holdsLt, holdsGt⟩
      have lengths := congrArg List.length whole
      simp only [List.length_append, List.length_nil] at lengths
      have rest : ls.length - (ls.filter (· < key)).length = (ls.filter (key < ·)).length := by
        omega
      simp [splitNode, holds.deg_eq, counted, first, member, rest, third]

theorem containsLoop_eq (key : Nat) {it : ReadIter} {values : List Nat}
    (sorted : values.Pairwise (· < ·)) (yields : it.Yields values) :
    containsLoop key values.length it = some (decide (key ∈ values)) := by
  induction values generalizing it with
  | nil => rfl
  | cons ngh values ih =>
    obtain ⟨after, first, rest⟩ := yields
    rw [List.length_cons, containsLoop, first, Option.bind_some]
    by_cases same : ngh = key
    · simp [same]
    · by_cases past : key < ngh
      · have absent : key ∉ values := fun member =>
          absurd (List.rel_of_pairwise_cons sorted member) past.not_gt
        simp [same, past, Ne.symm same, absent]
      · simp only [if_neg same, if_neg past, ih sorted.of_cons rest, List.mem_cons, Ne.symm same,
          false_or]

theorem containsNode_eq {key : Nat} (source : src < 2 ^ 32) (holds : Holds src l ls)
    (valid : Neighbors ls) : containsNode l src key = some (decide (key ∈ ls)) := by
  cases l with
  | none =>
    obtain rfl : ls = [] := holds
    rfl
  | some node =>
    have looped := containsLoop_eq key valid.ascending (holds.yields source valid)
    simp only [containsNode, Option.isSome_some, if_true, holds.deg_eq, looped]

theorem firstAndLastKeys_eq {a : Nat} (source : src < 2 ^ 32) (holds : Holds src l (a :: ls))
    (valid : Neighbors (a :: ls)) :
    firstAndLastKeys l src = some (a, (a :: ls).getLast (List.cons_ne_nil a ls)) := by
  cases l with
  | none => cases holds
  | some node =>
    obtain ⟨after, first, -⟩ := holds.yields source valid
    have last : node.lastNgh = (a :: ls).getLast (List.cons_ne_nil a ls) := by
      rw [holds.2.2.1, List.getLastD_cons, List.getLast_eq_getLastD]
    rw [firstAndLastKeys, first, Option.map_some, last]

end Nodes

end Zeppelin.Aspen
