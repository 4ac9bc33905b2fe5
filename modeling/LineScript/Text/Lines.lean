/-!
# LineScript.Text.Lines

Cutting text into lines.  A line ends with a line feed, which may have one
carriage return before it; the last line may lack its line feed, and then
keeps a carriage return at its end as an ordinary character.

* `flatten_splitAfter` — cutting after each separator loses nothing.
-/

namespace LineScript.Text

/-! ## pieces with their separators -/

/-- Cut a list after each occurrence of `sep`.  Every piece but perhaps the
last ends with `sep`, and no piece is empty. -/
def splitAfter [DecidableEq α] (sep : α) : List α → List (List α)
  | [] => []
  | x :: xs =>
    if x = sep then [x] :: splitAfter sep xs
    else match splitAfter sep xs with
      | [] => [[x]]
      | piece :: pieces => (x :: piece) :: pieces

/-- Cutting after each separator loses nothing. -/
@[simp] theorem flatten_splitAfter [DecidableEq α] (sep : α) (xs : List α) :
    (splitAfter sep xs).flatten = xs := by
  induction xs with
  | nil => rfl
  | cons x xs ih =>
      unfold splitAfter
      split
      · simp [ih]
      · split <;> simp_all

/-! ## lines of text -/

/-- Drop the line feed that ends a line, and one carriage return before it. -/
def chomp (cs : List Char) : List Char :=
  match cs.reverse with
  | '\n' :: '\r' :: rest => rest.reverse
  | '\n' :: rest => rest.reverse
  | _ => cs

/-- The lines of a text, without their ends. -/
def lines (text : String) : List String :=
  (splitAfter '\n' text.toList).map fun line => String.ofList (chomp line)

end LineScript.Text
