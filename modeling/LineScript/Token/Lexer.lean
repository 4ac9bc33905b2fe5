import LineScript.Error
import LineScript.Text.Blank
import LineScript.Text.Lines
import LineScript.Token.Rule

/-!
# LineScript.Token.Lexer

From text to tokens.  A line is trimmed, its range operators are set apart
from what they touch, and the result is cut at single spaces.  Each piece is the one
token that it is to its end, or else a word.  A piece that starts with two slashes ends
the line.

* `filter_isolateRanges` — setting ranges apart only inserts spaces;
* `integer_eq_looksNumeric` — what looks like a numeral is exactly what follows
  the pattern of integers;
* `classify_of_read?`, `classify_of_read?_eq_none` — a numeral is its number or too
  large, and no other piece that is not empty fails.
-/

namespace LineScript

namespace Token

/-! ## setting range operators apart -/

/-- The space to insert after `before`, the last character copied since the
line's start or the last range operator. -/
def gapAfter : Option Char → List Char
  | some c => if c = ' ' then [] else [' ']
  | none => []

/-- The space to insert before the rest of a line. -/
def gapBefore (rest : List Char) : List Char := gapAfter rest.head?

/-- Copy a line with a space on either side of each range operator, unless
there is one already or the line ends there. -/
def isolateFrom (before : Option Char) : List Char → List Char
  | '.' :: '.' :: '=' :: rest =>
    gapAfter before ++ '.' :: '.' :: '=' :: (gapBefore rest ++ isolateFrom none rest)
  | '.' :: '.' :: rest => gapAfter before ++ '.' :: '.' :: (gapBefore rest ++ isolateFrom none rest)
  | c :: rest => c :: isolateFrom (some c) rest
  | [] => []

/-- Set the range operators of a line apart from what they touch. -/
def isolateRanges (cs : List Char) : List Char := isolateFrom none cs

/-- A gap holds nothing but spaces. -/
@[simp] theorem filter_gapAfter (before : Option Char) :
    (gapAfter before).filter (· != ' ') = [] := by
  unfold gapAfter
  split
  · split <;> simp
  · rfl

theorem filter_isolateFrom (before : Option Char) (cs : List Char) :
    (isolateFrom before cs).filter (· != ' ') = cs.filter (· != ' ') := by
  fun_induction isolateFrom before cs <;> simp_all [gapBefore, List.filter_cons]

/-- Setting ranges apart only inserts spaces. -/
theorem filter_isolateRanges (cs : List Char) :
    (isolateRanges cs).filter (· != ' ') = cs.filter (· != ' ') :=
  filter_isolateFrom none cs

/-! ## one piece -/

/-- Whether a piece starts a comment. -/
def startsComment (piece : List Char) : Bool := ['/', '/'].isPrefixOf piece

/-- Whether a piece is digits after what may be a sign. -/
def looksNumeric (piece : List Char) : Bool := Decimal.isNumeral (Decimal.unsigned piece)

/-- The token a piece spells.  What is not one token to its end is a word, unless it
looks like a numeral: then it must be one that is too large. -/
def classify (piece : List Char) : Except LexCause Token :=
  if piece.isEmpty then .error .emptyToken
  else
    match whole? piece with
    | some t => .ok t
    | none =>
      if looksNumeric piece then .error (.literalTooLarge (String.ofList piece))
      else .ok (.word (String.ofList piece))

/-- What looks like a numeral is exactly what follows the pattern of integers. -/
theorem integer_eq_looksNumeric (piece : List Char) :
    Pattern.integer piece = looksNumeric piece := by
  have hdigits : Pattern.one Char.isDigit (Pattern.many Char.isDigit Pattern.done) =
      Decimal.isNumeral := by
    funext cs
    cases cs <;> simp [Pattern.one, Decimal.isNumeral]
  unfold looksNumeric
  rw [Pattern.integer, Pattern.optional, hdigits]
  -- A sign is no digit, so that only one of the two ways to read is open.
  fun_cases Decimal.unsigned piece with
  | case1 digits => simp [Pattern.one, Decimal.isNumeral, Char.isDigit]
  | case2 digits => simp [Pattern.one, Decimal.isNumeral, Char.isDigit]
  | case3 _ hplus hminus =>
    cases piece with
    | nil => rfl
    | cons c cs =>
      have hc : c ≠ '+' := fun h => hplus cs (by rw [h])
      have hc' : c ≠ '-' := fun h => hminus cs (by rw [h])
      simp [Pattern.one, hc, hc']

/-- What looks like a numeral is exactly what reads as an integer. -/
theorem looksNumeric_eq_isSome_read? (piece : List Char) :
    looksNumeric piece = (Decimal.read? piece).isSome := by
  rw [looksNumeric, Bool.eq_iff_iff, Decimal.read?_isSome_iff]

/-- A numeral is its number, or too large. -/
theorem classify_of_read? {piece : List Char} {z : Int} (h : Decimal.read? piece = some z) :
    classify piece =
      match Number.ofInt? z with
      | some n => .ok (.literal (.int n))
      | none => .error (.literalTooLarge (String.ofList piece)) := by
  have hlooks : looksNumeric piece = true := by rw [looksNumeric_eq_isSome_read?, h]; rfl
  have hinteger : Pattern.integer piece = true := by rw [integer_eq_looksNumeric, hlooks]
  have hne : piece ≠ [] := by
    rintro rfl
    contradiction
  have hwhole : whole? piece = (Number.ofInt? z).map fun n => .literal (.int n) := by
    rw [whole?_eq_ofPattern? hne, ofPattern?_eq, if_pos hinteger, Number.read?, h]
    rfl
  rw [classify, if_neg (by simpa using hne), hwhole, if_pos hlooks]
  cases Number.ofInt? z <;> rfl

/-- What is no numeral is the token of another pattern, or else a word. -/
theorem classify_of_read?_eq_none {piece : List Char} (hne : piece ≠ [])
    (h : Decimal.read? piece = none) :
    classify piece = .ok ((nonInteger? piece).getD (.word (String.ofList piece))) := by
  have hlooks : looksNumeric piece = false := by rw [looksNumeric_eq_isSome_read?, h]; rfl
  have hinteger : Pattern.integer piece = false := by rw [integer_eq_looksNumeric, hlooks]
  have hwhole : whole? piece = nonInteger? piece := by
    rw [whole?_eq_ofPattern? hne, ofPattern?_eq, if_neg (by simp [hinteger])]
  rw [classify, if_neg (by simpa using hne), hwhole, hlooks]
  cases nonInteger? piece <;> rfl

/-! ## one line -/

/-- The tokens of the pieces up to the first comment. -/
def classifyPieces : List (List Char) → Except LexCause (List Token)
  | [] => .ok []
  | piece :: pieces =>
    if startsComment piece then .ok []
    else do
      let token ← classify piece
      let tokens ← classifyPieces pieces
      return token :: tokens

/-- The tokens of a line; a blank line has none. -/
def scanLine (text : List Char) : Except LexCause (List Token) :=
  match Text.trim text with
  | [] => .ok []
  | cs => classifyPieces ((isolateRanges cs).splitOn ' ')

end Token

/-- The tokens of the line with the given number. -/
def tokenizeLine (text : String) (number : Nat) : Except (Fault LexCause) (List Token) :=
  (Token.scanLine text.toList).mapError (⟨·, number⟩)

/-! ## whole text -/

/-- The lines of tokens of the given lines of text, which are numbered from
`number` on.  A line without tokens is left out, but counted. -/
def tokenizeLines (number : Nat) : List String → Except (Fault LexCause) (List SourceLine)
  | [] => .ok []
  | text :: texts => do
    let tokens ← tokenizeLine text number
    let lines ← tokenizeLines (number + 1) texts
    return if tokens.isEmpty then lines else ⟨number, tokens⟩ :: lines

/-- The lines of tokens of a program's text. -/
def tokenize (source : String) : Except (Fault LexCause) (List SourceLine) :=
  tokenizeLines 1 (Text.lines source)

end LineScript
