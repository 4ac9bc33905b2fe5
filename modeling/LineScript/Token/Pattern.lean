/-!
# LineScript.Token.Pattern

What a piece of a line looks like as a whole.  A pattern is put together from
classes of characters: it goes on with one character of a class, with one or
none, with any number of them, or ends.

* `integer` — an optional sign and one or more digits;
* `quoted` — one character between quotation marks;
* `name` — a letter or an underscore, and then letters, digits and underscores.
-/

namespace LineScript.Token

/-- Whether a character may start a name. -/
def startsName (c : Char) : Bool := c.isAlpha || c = '_'

/-- Whether a character may stand in a name. -/
def inName (c : Char) : Bool := c.isAlphanum || c = '_'

/-- Whether a text, up to its end, looks as described. -/
abbrev Pattern := List Char → Bool

namespace Pattern

/-! ## parts of patterns -/

/-- The end of the text. -/
def done : Pattern := List.isEmpty

/-- One character of the class `p`. -/
def one (p : Char → Bool) (rest : Pattern) : Pattern
  | c :: cs => p c && rest cs
  | [] => false

/-- One character of the class `p`, or none. -/
def optional (p : Char → Bool) (rest : Pattern) : Pattern := fun cs => one p rest cs || rest cs

/-- Any number of characters of the class `p`. -/
def many (p : Char → Bool) (rest : Pattern) : Pattern
  | c :: cs => rest (c :: cs) || (p c && many p rest cs)
  | [] => rest []

/-- Any number of characters up to the end: all of them. -/
@[simp] theorem many_done (p : Char → Bool) (cs : List Char) : many p done cs = cs.all p := by
  induction cs with
  | nil => rfl
  | cons c cs ih => rw [many, ih]; rfl

/-! ## the patterns of tokens -/

/-- An integer, of whatever size. -/
def integer : Pattern :=
  optional (fun c => c = '+' || c = '-') (one Char.isDigit (many Char.isDigit done))

/-- A quoted character. -/
def quoted : Pattern := one (· = '\'') (one (· ≠ '\'') (one (· = '\'') done))

/-- A name. -/
def name : Pattern := one startsName (many inName done)

end Pattern

end LineScript.Token
