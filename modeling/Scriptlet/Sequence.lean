/-! Sequences cut at the items that pass a test. -/

namespace Scriptlet

/-- What follows the first item that fails the test is shorter than the whole. -/
theorem length_lt_of_dropWhile_eq_cons {test : α → Bool} {items later : List α} {item : α}
    (found : items.dropWhile test = item :: later) : later.length < items.length := by
  have shorter := (List.dropWhile_sublist (l := items) test).length_le
  rw [found, List.length_cons] at shorter
  exact shorter

/-- The items cut behind every item that ends a piece. No piece is empty. -/
def splitAfter (endsPiece : α → Bool) (items : List α) : List (List α) :=
  match _ : items.dropWhile (!endsPiece ·) with
  | [] => if items.isEmpty then [] else [items]
  | last :: later => (items.takeWhile (!endsPiece ·) ++ [last]) :: splitAfter endsPiece later
termination_by items.length
decreasing_by exact length_lt_of_dropWhile_eq_cons ‹_›

end Scriptlet
