/-!
Cutting a text at every place where one character stands.
-/

namespace Polled

/-- The pieces between the places where a character stands. There is one more of them than there are
places. -/
def pieces (cut : Char) : List Char → List (List Char)
  | [] => [[]]
  | c :: cs =>
    if c = cut then [] :: pieces cut cs
    else
      match pieces cut cs with
      | [] => [[c]]
      | s :: rest => (c :: s) :: rest

theorem pieces_ne_nil (cut : Char) (cs : List Char) : pieces cut cs ≠ [] := by
  cases cs with
  | nil => simp [pieces]
  | cons c cs =>
    unfold pieces
    split
    · simp
    · split <;> simp

end Polled
