import LineScript.Number
import Mathlib

/-!
# LineScript.Proofs.Number

Numbers and numerals.  A numeral is a sign, which may be missing, and one or more decimal
digits, of which the first may be zeros.  How it is written and what it is worth are said
here without reading it: by its digits, and by their places.

* `Number.exists_of_fits`, `Number.ofInt?_of_not_fits` — exactly the integers within the
  bounds are numbers;
* `Decimal.ofDigitChars_digitChars` — reading digits from the left adds up their places;
* `Decimal.read?_eq_some_iff` — reading gives exactly what numerals are worth.
-/

namespace LineScript

/-! ## the bounds -/

/-- Whether an integer is a number of the language. -/
def Number.Fits (z : Int) : Prop := -2 ^ 63 ≤ z ∧ z ≤ 2 ^ 63 - 1

instance (z : Int) : Decidable (Number.Fits z) := inferInstanceAs (Decidable (_ ∧ _))

theorem Number.fits_toInt (n : Number) : Fits n.toInt := by
  have hlow := n.le_toInt
  have hhigh := n.toInt_lt
  exact ⟨hlow, by omega⟩

/-- An integer that fits is a number. -/
theorem Number.exists_of_fits {z : Int} (h : Fits z) : ∃ n, ofInt? z = some n ∧ n.toInt = z := by
  cases hn : ofInt? z with
  | some n => exact ⟨n, rfl, ofInt?_eq_some_iff.mp hn⟩
  | none =>
      rw [ofInt?_eq_none_iff, Int64.toInt_minValue, Int64.toInt_maxValue] at hn
      unfold Fits at h
      omega

theorem Number.ofInt?_of_not_fits {z : Int} (h : ¬Fits z) : ofInt? z = none := by
  rw [ofInt?_eq_none_iff, Int64.toInt_minValue, Int64.toInt_maxValue]
  unfold Fits at h
  omega

theorem Number.toInt_eq_zero_iff {n : Number} : n.toInt = 0 ↔ n = 0 :=
  Int64.toInt_inj (y := 0)

namespace Decimal

/-! ## numerals and what they are worth -/

/-- What may stand before the digits of a numeral. -/
inductive Sign where
  | none
  | plus
  | minus
  deriving DecidableEq, Repr

/-- How a sign is written. -/
def Sign.chars : Sign → List Char
  | none => []
  | plus => ['+']
  | minus => ['-']

/-- The integer with the given sign and absolute value. -/
def Sign.apply : Sign → Nat → Int
  | minus, n => -n
  | _, n => n

/-- How digits are written. -/
def digitChars (digits : List (Fin 10)) : List Char := digits.map fun d => Nat.digitChar d.val

/-- What digits are worth by their places, of which the last counts one. -/
def digitsValue (digits : List (Fin 10)) : Nat := Nat.ofDigits 10 (digits.map Fin.val).reverse

/-- An optional sign and one or more digits. -/
structure Numeral where
  sign : Sign
  digits : List (Fin 10)
  digits_ne_nil : digits ≠ []

namespace Numeral

/-- How a numeral is written. -/
def chars (m : Numeral) : List Char := m.sign.chars ++ digitChars m.digits

/-- The integer a numeral stands for. -/
def value (m : Numeral) : Int := m.sign.apply (digitsValue m.digits)

end Numeral

/-! ## reading numerals -/

/-- Reading digits from the left adds up what they are worth by their places. -/
theorem ofDigitChars_digitChars (digits : List (Fin 10)) (n : Nat) :
    Nat.ofDigitChars 10 (digitChars digits) n = 10 ^ digits.length * n + digitsValue digits := by
  induction digits generalizing n with
  | nil => simp [digitChars, digitsValue, Nat.ofDigitChars]
  | cons d digits ih =>
      have hdigit : (Nat.digitChar d).toNat - '0'.toNat = d := by
        rw [Nat.toNat_digitChar_of_lt_ten d.isLt]
        simp
      have hread : Nat.ofDigitChars 10 (digitChars (d :: digits)) n =
          Nat.ofDigitChars 10 (digitChars digits) (10 * n + d) := by
        rw [digitChars, List.map_cons, Nat.ofDigitChars_cons, hdigit]
        rfl
      have hplace : digitsValue (d :: digits) = digitsValue digits + 10 ^ digits.length * d := by
        rw [digitsValue, List.map_cons, Nat.ofDigits_reverse_cons, List.length_map]
        rfl
      rw [hread, ih, hplace, List.length_cons]
      ring

theorem isNumeral_digitChars {digits : List (Fin 10)} (h : digits ≠ []) :
    isNumeral (digitChars digits) = true := by
  have hne : digitChars digits ≠ [] := by simpa [digitChars] using h
  rw [isNumeral, Bool.and_eq_true, Bool.not_eq_true', List.isEmpty_eq_false_iff, List.all_eq_true]
  refine ⟨hne, fun c hc => ?_⟩
  obtain ⟨d, -, rfl⟩ := List.mem_map.mp hc
  rw [Nat.isDigit_digitChar, decide_eq_true d.isLt]

theorem readNat?_digitChars {digits : List (Fin 10)} (h : digits ≠ []) :
    readNat? (digitChars digits) = some (digitsValue digits) := by
  rw [readNat?, if_pos (isNumeral_digitChars h), ofDigitChars_digitChars, Nat.mul_zero, Nat.zero_add]

/-- A numeral is read as what it is worth. -/
theorem read?_chars (m : Numeral) : read? m.chars = some m.value := by
  obtain ⟨sign, digits, hne⟩ := m
  have hread := readNat?_digitChars hne
  cases sign with
  | none =>
      show read? (digitChars digits) = some (digitsValue digits : Int)
      rw [read?_of_isNumeral (isNumeral_digitChars hne), hread]
      rfl
  | plus =>
      show (readNat? (digitChars digits)).map Int.ofNat = some (digitsValue digits : Int)
      rw [hread]
      rfl
  | minus =>
      show (readNat? (digitChars digits)).map Int.negOfNat = some (-(digitsValue digits : Int))
      rw [hread, Option.map_some, Int.negOfNat_eq]
      rfl

/-- Every ASCII digit is the digit of a number below ten. -/
theorem exists_digitChar_eq {c : Char} (h : c.isDigit = true) :
    ∃ d : Fin 10, Nat.digitChar d = c := by
  simp only [Char.isDigit, Bool.and_eq_true, decide_eq_true_eq, UInt32.le_iff_toNat_le] at h
  have hlow : 48 ≤ c.toNat := h.1
  have hhigh : c.toNat ≤ 57 := h.2
  have hlt : c.toNat - 48 < 10 := by omega
  refine ⟨⟨c.toNat - 48, hlt⟩, Char.toNat_inj.mp ?_⟩
  rw [Nat.toNat_digitChar_of_lt_ten hlt]
  omega

theorem exists_digitChars_eq {cs : List Char} (h : isNumeral cs = true) :
    ∃ digits, digits ≠ [] ∧ digitChars digits = cs := by
  simp only [isNumeral, Bool.and_eq_true, Bool.not_eq_true', List.isEmpty_eq_false_iff,
    List.all_eq_true] at h
  obtain ⟨hne, hall⟩ := h
  have hrange : cs ∈ Set.range digitChars := by
    show cs ∈ Set.range (List.map fun d : Fin 10 => Nat.digitChar d.val)
    rw [Set.range_list_map]
    exact fun c hc => exists_digitChar_eq (hall c hc)
  obtain ⟨digits, rfl⟩ := hrange
  exact ⟨digits, fun hnil => hne (by rw [hnil]; rfl), rfl⟩

/-- A sign and what is left without it are the whole text. -/
theorem exists_sign_append_unsigned (cs : List Char) :
    ∃ sign : Sign, sign.chars ++ unsigned cs = cs := by
  unfold unsigned
  split
  · exact ⟨.plus, rfl⟩
  · exact ⟨.minus, rfl⟩
  · exact ⟨.none, rfl⟩

/-- What is read is a numeral. -/
theorem exists_numeral_of_read? {cs : List Char} {z : Int} (h : read? cs = some z) :
    ∃ m : Numeral, m.chars = cs := by
  have hnumeral : isNumeral (unsigned cs) = true := by
    rw [← read?_isSome_iff, h]
    rfl
  obtain ⟨digits, hne, hdigits⟩ := exists_digitChars_eq hnumeral
  obtain ⟨sign, hsign⟩ := exists_sign_append_unsigned cs
  exact ⟨⟨sign, digits, hne⟩, by rw [Numeral.chars, hdigits, hsign]⟩

/-- Reading gives exactly what numerals are worth. -/
theorem read?_eq_some_iff {cs : List Char} {z : Int} :
    read? cs = some z ↔ ∃ m : Numeral, m.chars = cs ∧ m.value = z := by
  constructor
  · intro h
    obtain ⟨m, rfl⟩ := exists_numeral_of_read? h
    rw [read?_chars, Option.some.injEq] at h
    exact ⟨m, rfl, h⟩
  · intro ⟨m, hchars, hvalue⟩
    rw [← hchars, read?_chars, hvalue]

end Decimal

end LineScript
