/-!
# LineScript.Decimal

Integers as decimal text.  Written, an integer is its digits without leading
zeros after an optional minus sign; read, it may also carry a plus sign and
leading zeros.

* `read?_write` — what is written reads back as the same integer;
* `read?_isSome_iff` — exactly an optional sign and at least one digit reads.
-/

namespace LineScript.Decimal

/-! ## writing -/

/-- The decimal digits of an integer, after a minus sign if it is negative. -/
def write : Int → List Char
  | .ofNat n => Nat.toDigits 10 n
  | .negSucc n => '-' :: Nat.toDigits 10 (n + 1)

/-- The decimal text of an integer. -/
def text (z : Int) : String := String.ofList (write z)

/-! ## reading -/

/-- Whether the characters are one or more ASCII digits. -/
def isNumeral (cs : List Char) : Bool := !cs.isEmpty && cs.all Char.isDigit

/-- The value of one or more digits. -/
def readNat? (cs : List Char) : Option Nat :=
  if isNumeral cs then some (Nat.ofDigitChars 10 cs 0) else none

/-- The value of an optional sign and one or more digits. -/
def read? : List Char → Option Int
  | '+' :: digits => (readNat? digits).map Int.ofNat
  | '-' :: digits => (readNat? digits).map Int.negOfNat
  | digits => (readNat? digits).map Int.ofNat

/-- The characters after an optional sign. -/
def unsigned : List Char → List Char
  | '+' :: digits => digits
  | '-' :: digits => digits
  | digits => digits

/-- Exactly an optional sign and at least one digit reads. -/
theorem read?_isSome_iff (cs : List Char) :
    (read? cs).isSome = true ↔ isNumeral (unsigned cs) = true := by
  unfold read? unsigned
  split <;> simp [readNat?, apply_ite Option.isSome]

/-! ## round trip -/

theorem isNumeral_toDigits (n : Nat) : isNumeral (Nat.toDigits 10 n) = true := by
  have hne : Nat.toDigits 10 n ≠ [] := Nat.toDigits_ne_nil
  simp only [isNumeral, Bool.and_eq_true, Bool.not_eq_true', List.isEmpty_eq_false_iff, ne_eq, hne,
    not_false_eq_true, List.all_eq_true, true_and]
  exact fun c hc => Nat.isDigit_of_mem_toDigits (by decide) (by decide) hc

theorem readNat?_toDigits (n : Nat) : readNat? (Nat.toDigits 10 n) = some n := by
  simp [readNat?, isNumeral_toDigits, Nat.ofDigitChars_ten_toDigits]

/-- A numeral starts with neither sign. -/
theorem read?_of_isNumeral {cs : List Char} (h : isNumeral cs = true) :
    read? cs = (readNat? cs).map Int.ofNat := by
  unfold read?
  split
  · simp [isNumeral, Char.isDigit] at h
  · simp [isNumeral, Char.isDigit] at h
  · rfl

/-- What is written reads back as the same integer. -/
theorem read?_write (z : Int) : read? (write z) = some z := by
  cases z with
  | ofNat n => rw [write, read?_of_isNumeral (isNumeral_toDigits n), readNat?_toDigits]; rfl
  | negSucc n => simp only [write, read?, readNat?_toDigits, Option.map_some]; rfl

end LineScript.Decimal
