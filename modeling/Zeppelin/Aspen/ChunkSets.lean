import Zeppelin.Aspen.CompressedLists
import Zeppelin.Ordered.Segments
import Mathlib.Data.Finset.Sort

/-! Compressed nodes as sets of neighbours: what the operations on nodes compute,
without the order in which they read and write. -/
namespace Zeppelin.Aspen

open Ordered

/-- The node holds the set, whose members are 32-bit identifiers and fewer than a
16-bit degree counts. -/
structure IsChunk (src : Nat) (node : Option CompressedNode) (S : Finset Nat) : Prop where
  holds : Holds src node S.sort
  fits : ∀ ngh ∈ S, ngh < 2 ^ 32
  small : S.card < 2 ^ 16

variable {src : Nat} {l r : Option CompressedNode} {S T : Finset Nat}

theorem lists_sort (S : Finset Nat) : Lists S.sort (S : Set Nat) :=
  ⟨S.sortedLT_sort.pairwise, fun x => by rw [Finset.mem_sort, Finset.mem_coe]⟩

/-- The list of a set is the only one in ascending order. -/
theorem eq_sort {ls : List Nat} (lists : Lists ls (S : Set Nat)) : ls = S.sort :=
  lists.unique (lists_sort S)

theorem IsChunk.neighbors (chunk : IsChunk src l S) : Neighbors S.sort :=
  ⟨(lists_sort S).ascending, fun x member => chunk.fits x ((Finset.mem_sort _).mp member)⟩

theorem sort_ne_nil_iff : S.sort ≠ [] ↔ S.Nonempty := by
  rw [Ne, ← List.length_eq_zero_iff, Finset.length_sort, ← Ne, Finset.card_ne_zero]

/-- What a writer makes of a set. -/
theorem isChunk_finish (src degUb : Nat) (fits : ∀ ngh ∈ S, ngh < 2 ^ 32) (small : S.card < 2 ^ 16) :
    IsChunk src ((WriteIter.create src degUb).compressAll S.sort).finish S :=
  ⟨holds_finish degUb (by rwa [Finset.length_sort]), fits, small⟩

theorem IsChunk.of_lists {ls : List Nat} (holds : Holds src l ls) (lists : Lists ls (S : Set Nat))
    (fits : ∀ ngh ∈ S, ngh < 2 ^ 32) (small : S.card < 2 ^ 16) : IsChunk src l S :=
  ⟨eq_sort lists ▸ holds, fits, small⟩

theorem union_eq_sort (S T : Finset Nat) : Ordered.union S.sort T.sort = (S ∪ T).sort :=
  eq_sort (((lists_sort S).union (lists_sort T)).congr fun x => by rw [Finset.coe_union])

/-- `union`, of which the two nodes cannot both be null. -/
theorem isChunk_unionNodes (source : src < 2 ^ 32) (left : IsChunk src l S)
    (right : IsChunk src r T) (present : (S ∪ T).Nonempty) (small : (S ∪ T).card < 2 ^ 16) :
    ∃ node, unionNodes l r src = some node ∧ IsChunk src node (S ∪ T) := by
  have some : S.sort ≠ [] ∨ T.sort ≠ [] := by
    rw [sort_ne_nil_iff, sort_ne_nil_iff]
    exact Finset.union_nonempty.mp present
  have few : (Ordered.union S.sort T.sort).length < 2 ^ 16 := by
    rwa [union_eq_sort, Finset.length_sort]
  obtain ⟨node, done, holds⟩ := unionNodes_holds source left.holds right.holds left.neighbors
    right.neighbors some few
  rw [union_eq_sort] at holds
  refine ⟨node, done, holds, fun ngh member => ?_, small⟩
  rcases Finset.mem_union.mp member with first | second
  · exact left.fits ngh first
  · exact right.fits ngh second

theorem isChunk_unionNodes_around : ∃ node,
    unionNodes ((WriteIter.create 5 2).compressAll (Finset.sort {3, 700})).finish
        ((WriteIter.create 5 3).compressAll (Finset.sort {3, 9, 4000000000})).finish 5 = some node ∧
      IsChunk 5 node ({3, 700} ∪ {3, 9, 4000000000}) :=
  isChunk_unionNodes (by decide) (isChunk_finish 5 2 (by decide) (by decide))
    (isChunk_finish 5 3 (by decide) (by decide)) (by decide) (by decide)

/-- `difference`: the second node without what is in the first. -/
theorem isChunk_differenceNodes (source : src < 2 ^ 32) (left : IsChunk src l S)
    (right : IsChunk src r T) (present : (S ∪ T).Nonempty) :
    ∃ node, differenceNodes l r src = some node ∧ IsChunk src node (T \ S) := by
  have some : S.sort ≠ [] ∨ T.sort ≠ [] := by
    rw [sort_ne_nil_iff, sort_ne_nil_iff]
    exact Finset.union_nonempty.mp present
  obtain ⟨node, done, holds⟩ := differenceNodes_holds source left.holds right.holds left.neighbors
    right.neighbors some (by rw [Finset.length_sort]; exact right.small)
  refine ⟨node, done, IsChunk.of_lists holds ?_ (fun ngh member => ?_) ?_⟩
  · exact ((lists_sort S).difference (lists_sort T)).congr fun x => by rw [Finset.coe_sdiff]
  · exact right.fits ngh (Finset.mem_sdiff.mp member).1
  · exact (Finset.card_le_card Finset.sdiff_subset).trans_lt right.small

theorem isChunk_differenceNodes_around : ∃ node,
    differenceNodes ((WriteIter.create 5 2).compressAll (Finset.sort {3, 700})).finish
        ((WriteIter.create 5 3).compressAll (Finset.sort {3, 9, 4000000000})).finish 5 = some node ∧
      IsChunk 5 node ({3, 9, 4000000000} \ {3, 700}) :=
  isChunk_differenceNodes (by decide) (isChunk_finish 5 2 (by decide) (by decide))
    (isChunk_finish 5 3 (by decide) (by decide)) (by decide)

/-- `intersect` counts the common neighbours of two sources. -/
theorem intersectNodes_eq_card {rSrc : Nat} (source : src < 2 ^ 32) (rSource : rSrc < 2 ^ 32)
    (left : IsChunk src l S) (right : IsChunk rSrc r T) :
    intersectNodes l src r rSrc = some (S ∩ T).card := by
  have lists : Lists (Ordered.common S.sort T.sort) ((S ∩ T : Finset Nat) : Set Nat) := by
    refine ⟨(lists_sort S).ascending.sublist (Ordered.common_sublist _ _), fun x => ?_⟩
    rw [Ordered.mem_common (lists_sort S).ascending (lists_sort T).ascending, Finset.mem_sort,
      Finset.mem_sort, Finset.mem_coe, Finset.mem_inter]
  rw [intersectNodes_eq source rSource left.holds right.holds left.neighbors right.neighbors,
    eq_sort lists, Finset.length_sort]

theorem intersectNodes_eq_card_two :
    intersectNodes ((WriteIter.create 5 2).compressAll (Finset.sort {3, 700})).finish 5
        ((WriteIter.create 8 3).compressAll (Finset.sort {3, 9, 700})).finish 8 =
      some (({3, 700} : Finset Nat) ∩ {3, 9, 700}).card :=
  intersectNodes_eq_card (by decide) (by decide) (isChunk_finish 5 2 (by decide) (by decide))
    (isChunk_finish 8 3 (by decide) (by decide))

theorem isChunk_filter {p : Nat → Prop} [DecidablePred p] {node : Option CompressedNode}
    (chunk : IsChunk src l S) (holds : Holds src node (S.sort.filter fun ngh => p ngh)) :
    IsChunk src node (S.filter p) := by
  refine IsChunk.of_lists holds (((lists_sort S).filter _).congr fun x => ?_) (fun ngh member => ?_) ?_
  · rw [Set.mem_ofPred_eq, decide_eq_true_eq, Finset.mem_coe, Finset.mem_coe, Finset.mem_filter]
  · exact chunk.fits ngh (Finset.mem_filter.mp member).1
  · exact (Finset.card_filter_le S p).trans_lt chunk.small

/-- `split` at a key, which is then in neither part. -/
theorem isChunk_splitNode (source : src < 2 ^ 32) (chunk : IsChunk src l S) (key : Nat) :
    ∃ lt gt, splitNode l src key = some (lt, gt, decide (key ∈ S)) ∧
      IsChunk src lt (S.filter (· < key)) ∧ IsChunk src gt (S.filter (key < ·)) := by
  have few : S.sort.length < 2 ^ 16 := by
    rw [Finset.length_sort]
    exact chunk.small
  have parts : ∃ lt gt, splitNode l src key = some (lt, gt, decide (key ∈ S.sort)) ∧
      Holds src lt (S.sort.filter (· < key)) ∧ Holds src gt (S.sort.filter (key < ·)) :=
    splitNode_holds source chunk.holds chunk.neighbors few
  obtain ⟨lt, gt, done, low, high⟩ := parts
  refine ⟨lt, gt, ?_, isChunk_filter chunk low, isChunk_filter chunk high⟩
  simpa only [Finset.mem_sort] using done

theorem isChunk_splitNode_around : ∃ lt gt,
    splitNode ((WriteIter.create 5 3).compressAll (Finset.sort {3, 9, 700})).finish 5 9 =
        some (lt, gt, decide (9 ∈ ({3, 9, 700} : Finset Nat))) ∧
      IsChunk 5 lt (({3, 9, 700} : Finset Nat).filter (· < 9)) ∧
      IsChunk 5 gt (({3, 9, 700} : Finset Nat).filter (9 < ·)) :=
  isChunk_splitNode (by decide) (isChunk_finish 5 3 (by decide) (by decide)) 9

end Zeppelin.Aspen
