import Mathlib.Data.List.ReduceOption

/-! In-order delivery of a list to one caller. A call either returns the next
item or reports the end; `results` is the history of all calls. -/
namespace Zeppelin.Delivery

variable {α : Type}

/-- The items returned so far are the first ones, in order. The end is reported
only after all of them were returned, and then by every later call. -/
structure Delivered (items : List α) (results : List (Option α)) : Prop where
  in_order : results.reduceOption <+: items
  end_last : ∀ before after, results = before ++ none :: after →
    before.reduceOption = items ∧ ∀ r ∈ after, r = none

variable {items rest : List α} {results : List (Option α)}

theorem delivered_nil (items : List α) : Delivered items [] where
  in_order := List.nil_prefix
  end_last := fun before after split => by simp at split

/-- Nothing is returned once the end was reported. -/
theorem Delivered.complete (delivered : Delivered items results) (ended : none ∈ results) :
    results.reduceOption = items := by
  obtain ⟨before, after, rfl⟩ := List.append_of_mem ended
  obtain ⟨complete, quiet⟩ := delivered.end_last before after rfl
  rw [List.reduceOption_append, List.reduceOption_cons_of_none, List.eq_replicate_of_mem quiet,
    List.reduceOption_replicate_none, complete, List.append_nil]

theorem Delivered.item (delivered : Delivered items results) {x : α}
    (next : results.reduceOption ++ x :: rest = items) :
    Delivered items (results ++ [some x]) := by
  have running : none ∉ results := by
    intro ended
    rw [delivered.complete ended] at next
    simp at next
  constructor
  · rw [List.reduceOption_append]
    exact ⟨rest, by simpa [List.reduceOption_singleton] using next⟩
  · intro before after split
    have member : none ∈ results ++ [some x] := by simp [split]
    simp [running] at member

theorem Delivered.finish (delivered : Delivered items results)
    (complete : results.reduceOption = items) : Delivered items (results ++ [none]) := by
  constructor
  · rw [List.reduceOption_append, complete]
    simp
  · intro before after split
    rcases List.eq_nil_or_concat after with rfl | ⟨front, last, rfl⟩
    · obtain ⟨rfl, -⟩ := List.append_inj' split rfl
      exact ⟨complete, by simp⟩
    · rw [List.concat_eq_append, ← List.cons_append, ← List.append_assoc] at split
      obtain ⟨inner, same⟩ := List.append_inj' split rfl
      obtain ⟨done, quiet⟩ := delivered.end_last before front inner
      refine ⟨done, ?_⟩
      intro r member
      simp only [List.concat_eq_append, List.mem_append, List.mem_singleton] at member
      rcases member with early | rfl
      · exact quiet r early
      · exact (List.cons.inj same).1.symm

/-- Calls that are not more than the items return the first items. -/
theorem Delivered.results_eq (delivered : Delivered items results)
    (few : results.length ≤ items.length) : results = (items.take results.length).map some := by
  have running : none ∉ results := by
    intro ended
    obtain ⟨before, after, rfl⟩ := List.append_of_mem ended
    obtain ⟨complete, -⟩ := delivered.end_last before after rfl
    have returned := List.reduceOption_length_le before
    rw [complete] at returned
    rw [List.length_append, List.length_cons] at few
    omega
  have whole : results.reduceOption.map some = results := by
    clear delivered few
    induction results with
    | nil => rfl
    | cons r rest ih =>
      obtain ⟨here, later⟩ := not_or.mp (mt List.mem_cons.mpr running)
      cases r with
      | none => exact absurd rfl here
      | some x => rw [List.reduceOption_cons_of_some, List.map_cons, ih later]
  have length : results.reduceOption.length = results.length := by
    conv_rhs => rw [← whole, List.length_map]
  rw [← length, ← List.prefix_iff_eq_take.mp delivered.in_order, whole]

end Zeppelin.Delivery
