import Mathlib.Data.List.Basic

/-! Positions in a list. What a reader at position `i` still has before it is
`list.drop i`, and it moves on by passing a first part of that. -/
namespace Zeppelin.Cursor

variable {α : Type} {list tail : List α} {i : Nat}

theorem getElem?_eq {a : α} (there : list.drop i = a :: tail) : list[i]? = some a := by
  rw [← List.head?_drop, there, List.head?_cons]

theorem drop_add (front : List α) (there : list.drop i = front ++ tail) :
    list.drop (i + front.length) = tail := by
  rw [← List.drop_drop, there, List.drop_left]

theorem drop_succ {a : α} (there : list.drop i = a :: tail) : list.drop (i + 1) = tail :=
  drop_add [a] there

/-- What is passed is a part of the list. -/
theorem length_le {front : List α} (there : list.drop i = front ++ tail) :
    front.length ≤ list.length := by
  have fits : (list.drop i).length ≤ list.length := by
    rw [List.length_drop]
    exact Nat.sub_le _ _
  rw [there, List.length_append] at fits
  exact Nat.le_of_add_right_le fits

end Zeppelin.Cursor
