import LineScript.Decimal

/-!
# LineScript.Number

The numbers of the language: integers that fit in 64 bits with sign, from
`-2 ^ 63` to `2 ^ 63 - 1`.  Results are computed on integers and then
brought back, so that one that does not fit is noticed.

* `ofInt?_eq_some_iff` — an integer comes back exactly as the number of that value;
* `ofInt?_eq_none_iff` — it does not exactly when it lies outside the bounds.
-/

namespace LineScript

/-- A number of the language. -/
abbrev Number := Int64

namespace Number

/-- The number of the given value, if there is one. -/
def ofInt? (z : Int) : Option Number :=
  if Int64.minValue.toInt ≤ z ∧ z ≤ Int64.maxValue.toInt then some (Int64.ofInt z) else none

/-- An integer comes back exactly as the number of that value. -/
theorem ofInt?_eq_some_iff {z : Int} {n : Number} : ofInt? z = some n ↔ n.toInt = z := by
  unfold ofInt?
  split
  · next h =>
    rw [Int64.toInt_minValue, Int64.toInt_maxValue] at h
    rw [Option.some.injEq, ← Int64.toInt_inj, Int64.toInt_ofInt_of_le h.1 (by omega), eq_comm]
  · next h =>
    constructor
    · intro hn; contradiction
    · rintro rfl; exact absurd ⟨n.minValue_le_toInt, n.toInt_le⟩ h

/-- An integer does not come back exactly when it lies outside the bounds. -/
theorem ofInt?_eq_none_iff {z : Int} :
    ofInt? z = none ↔ z < Int64.minValue.toInt ∨ Int64.maxValue.toInt < z := by
  unfold ofInt?
  rw [Int64.toInt_minValue, Int64.toInt_maxValue]
  split <;> simp <;> omega

/-- A number comes back from its value. -/
@[simp] theorem ofInt?_toInt (n : Number) : ofInt? n.toInt = some n :=
  ofInt?_eq_some_iff.mpr rfl

/-! ## counting -/

/-- A number above another one has a number right below it. -/
theorem toInt_sub_one_of_lt {a b : Number} (h : a < b) : (b - 1).toInt = b.toInt - 1 := by
  rw [Int64.lt_iff_toInt_lt] at h
  have hlow := a.le_toInt
  have hhigh := b.toInt_lt
  have hone : (1 : Number).toInt = 1 := rfl
  rw [Int64.toInt_sub, hone]
  exact Int.bmod_eq_of_le (by omega) (by omega)

/-- The distance of two numbers, as a word without sign. -/
def distance (a b : Number) : UInt64 :=
  if a < b then b.toUInt64 - a.toUInt64 else a.toUInt64 - b.toUInt64

/-- The sum of two words without sign, or the largest word if it is beyond that. -/
def saturatingAdd (a b : UInt64) : UInt64 :=
  if a.toNat + b.toNat < UInt64.size then a + b else UInt64.ofNat (UInt64.size - 1)

/-- The numbers from `first` up to `stop`, but without `stop`, and then `rest`. -/
def upTo (first stop : Number) (rest : List Number) : List Number :=
  if first < stop then upTo first (stop - 1) ((stop - 1) :: rest) else rest
termination_by (stop.toInt - first.toInt).toNat
decreasing_by
  next h =>
    rw [toInt_sub_one_of_lt h]
    rw [Int64.lt_iff_toInt_lt] at h
    omega

/-- The numbers from `first` up to `last`, and then `rest`. -/
def through (first last : Number) (rest : List Number) : List Number :=
  if first < last then through first (last - 1) (last :: rest)
  else if first = last then last :: rest
  else rest
termination_by (last.toInt - first.toInt).toNat
decreasing_by
  next h =>
    rw [toInt_sub_one_of_lt h]
    rw [Int64.lt_iff_toInt_lt] at h
    omega

/-! ## text -/

/-- The number that an optional sign and digits stand for, if there is one. -/
def read? (cs : List Char) : Option Number := (Decimal.read? cs).bind ofInt?

/-- The decimal text of a number. -/
def text (n : Number) : String := Decimal.text n.toInt

end Number

end LineScript
