import LineScript.Eval.Operator
import LineScript.Proofs.Stateful
import Mathlib

/-!
# LineScript.Proofs.Eval.Range

Ranges are exact.  A range measures the distance of its ends on words, goes one step up
from its end if it counts down without it, and then steps from number to number.  None
of this leaves the words or the numbers, whatever the ends are: every step is made below
another number or above it.  So the elements are those of the same range over the
integers, which `countFrom` writes in one line and which all else is read off.

* `Number.toNat_distance`, `Number.toNat_saturatingAdd` — what words hold;
* `Number.map_toInt_upTo`, `Number.map_toInt_through` — counting up, as integers;
* `BinaryOp.rangeItems_eq_ok_iff` — a range is the same range over the integers;
* `BinaryOp.mem_rangeItems_iff` — which numbers are elements;
* `BinaryOp.rangeItems_exact` — all that can come of a range.
-/

namespace LineScript

/-! ## numbers and words -/

namespace Number

theorem toInt_add_eq {a b : Number} (hlow : -2 ^ 63 ≤ a.toInt + b.toInt)
    (hhigh : a.toInt + b.toInt < 2 ^ 63) : (a + b).toInt = a.toInt + b.toInt := by
  rw [Int64.toInt_add]
  exact Int.bmod_eq_of_le hlow hhigh

/-- A number has a successor if it is below another one. -/
theorem toInt_add_one_of_lt {a b : Number} (h : a < b) : (a + 1).toInt = a.toInt + 1 := by
  rw [Int64.lt_iff_toInt_lt] at h
  have hlow := a.le_toInt
  have hhigh := b.toInt_lt
  have hone : (1 : Number).toInt = 1 := rfl
  rw [toInt_add_eq (by omega) (by omega), hone]

/-- The word of a number is the number, or above the numbers if that is negative. -/
theorem toNat_toUInt64 (a : Number) : (a.toUInt64.toNat : Int) = a.toInt % 2 ^ 64 := by
  have hword : a.toInt = (a.toUInt64.toNat : Int).bmod (2 ^ 64) :=
    BitVec.toInt_eq_toNat_bmod a.toBitVec
  have hlt : (a.toUInt64.toNat : Int) < 2 ^ 64 := by exact_mod_cast a.toUInt64.toNat_lt
  have hemod : a.toInt % 2 ^ 64 = (a.toUInt64.toNat : Int) % 2 ^ 64 := by
    rw [hword]
    exact Int.bmod_emod
  rw [hemod, Int.emod_eq_of_lt (Int.natCast_nonneg _) hlt]

/-- A difference of words is exact if it is not negative. -/
theorem toNat_sub_toUInt64 {a b : Number} (h : a.toInt ≤ b.toInt) :
    ((b.toUInt64 - a.toUInt64).toNat : Int) = b.toInt - a.toInt := by
  have ha := toNat_toUInt64 a
  have hb := toNat_toUInt64 b
  have hlow := a.le_toInt
  have hhigh := b.toInt_lt
  have halt := a.toUInt64.toNat_lt
  rw [UInt64.toNat_sub]
  omega

/-- The distance of two numbers fits in a word. -/
theorem toNat_distance (a b : Number) : (distance a b).toNat = (b.toInt - a.toInt).natAbs := by
  unfold distance
  split
  · next h =>
    have hsub := toNat_sub_toUInt64 (Int.le_of_lt (Int64.lt_iff_toInt_lt.mp h))
    omega
  · next h =>
    have hsub := toNat_sub_toUInt64 (Int64.le_iff_toInt_le.mp (Int64.not_lt.mp h))
    omega

/-- A sum of words is exact, or the largest word. -/
theorem toNat_saturatingAdd (a b : UInt64) :
    (saturatingAdd a b).toNat = min (a.toNat + b.toNat) (2 ^ 64 - 1) := by
  have hsize : UInt64.size = 2 ^ 64 := rfl
  unfold saturatingAdd
  split
  · next h =>
    rw [UInt64.toNat_add]
    omega
  · next h =>
    rw [UInt64.toNat_ofNat_of_lt' (by decide)]
    omega

/-- The number lies between the ends of a range, in its direction: the start counts, and
the end counts if the range is inclusive. -/
def Between (start stop : Number) (inclusive : Bool) (n : Number) : Prop :=
  if start < stop then start ≤ n ∧ (n < stop ∨ inclusive = true ∧ n = stop)
  else n ≤ start ∧ (stop < n ∨ inclusive = true ∧ stop = n)

theorem lt_or_eq_iff (inclusive : Bool) (a b : Int) :
    (a < b ∨ inclusive = true ∧ a = b) ↔ a < b + inclusive.toNat := by
  cases inclusive with
  | false => simp
  | true => simp; omega

/-- The same, over the integers. -/
theorem between_iff {start stop : Number} {inclusive : Bool} {n : Number} :
    Between start stop inclusive n ↔
      if start < stop then start.toInt ≤ n.toInt ∧ n.toInt < stop.toInt + inclusive.toNat
      else n.toInt ≤ start.toInt ∧ stop.toInt < n.toInt + inclusive.toNat := by
  unfold Between
  simp only [Int64.lt_iff_toInt_lt, Int64.le_iff_toInt_le, ← Int64.toInt_inj, lt_or_eq_iff]

/-! ## counting -/

/-- The first integers from `start` on, upwards or downwards. -/
def countFrom (start : Int) (upwards : Bool) (count : Nat) : List Int :=
  (List.range count).map fun i : Nat => if upwards then start + i else start - i

@[simp] theorem length_countFrom (start : Int) (upwards : Bool) (count : Nat) :
    (countFrom start upwards count).length = count := by
  simp [countFrom]

theorem countFrom_succ (start : Int) (count : Nat) :
    countFrom start true (count + 1) = countFrom start true count ++ [start + count] := by
  simp [countFrom, List.range_succ]

/-- Counting down is counting up to the same integer, reversed. -/
theorem reverse_countFrom {first last : Int} (count : Nat) (h : last + 1 = first + count) :
    (countFrom first true count).reverse = countFrom last false count := by
  refine List.ext_getElem (by simp) fun i hi _ => ?_
  rw [List.length_reverse, length_countFrom] at hi
  simp only [countFrom, List.getElem_reverse, List.length_map, List.length_range,
    List.getElem_map, List.getElem_range, if_true, Bool.false_eq_true, if_false]
  omega

theorem map_toInt_upTo (first stop : Number) (rest : List Number) :
    (upTo first stop rest).map Int64.toInt =
      countFrom first.toInt true (stop.toInt - first.toInt).toNat ++ rest.map Int64.toInt := by
  induction stop, rest using upTo.induct first with
  | case1 stop rest h ih =>
      have hpred := toInt_sub_one_of_lt h
      rw [Int64.lt_iff_toInt_lt] at h
      have hcount : (stop.toInt - first.toInt).toNat =
          ((stop - 1).toInt - first.toInt).toNat + 1 := by
        omega
      have hlast : first.toInt + ((stop - 1).toInt - first.toInt).toNat = (stop - 1).toInt := by
        omega
      rw [upTo, if_pos (Int64.lt_iff_toInt_lt.mpr h), ih, hcount, countFrom_succ, hlast,
        List.map_cons, List.append_assoc, List.singleton_append]
  | case2 stop rest h =>
      have hnone : (stop.toInt - first.toInt).toNat = 0 := by
        rw [Int64.lt_iff_toInt_lt] at h
        omega
      rw [upTo, if_neg h, hnone]
      rfl

theorem map_toInt_through (first last : Number) (rest : List Number) :
    (through first last rest).map Int64.toInt =
      countFrom first.toInt true (last.toInt - first.toInt + 1).toNat ++
        rest.map Int64.toInt := by
  induction last, rest using through.induct first with
  | case1 last rest h ih =>
      have hpred := toInt_sub_one_of_lt h
      rw [Int64.lt_iff_toInt_lt] at h
      have hcount : (last.toInt - first.toInt + 1).toNat =
          ((last - 1).toInt - first.toInt + 1).toNat + 1 := by
        omega
      have hlast : first.toInt + ((last - 1).toInt - first.toInt + 1).toNat = last.toInt := by
        omega
      rw [through, if_pos (Int64.lt_iff_toInt_lt.mpr h), ih, hcount, countFrom_succ, hlast,
        List.map_cons, List.append_assoc, List.singleton_append]
  | case2 rest h =>
      have hone : (first.toInt - first.toInt + 1).toNat = 1 := by
        omega
      rw [through, if_neg h, if_pos rfl, hone]
      simp [countFrom]
  | case3 last rest h hne =>
      have hnone : (last.toInt - first.toInt + 1).toNat = 0 := by
        rw [Int64.lt_iff_toInt_lt] at h
        rw [← Int64.toInt_inj] at hne
        omega
      rw [through, if_neg h, if_neg hne, hnone]
      rfl

theorem map_toInt_reverse_through {first last : Number} (h : first ≤ last) :
    (through first last []).reverse.map Int64.toInt =
      countFrom last.toInt false (last.toInt - first.toInt + 1).toNat := by
  rw [Int64.le_iff_toInt_le] at h
  rw [List.map_reverse, map_toInt_through, List.map_nil, List.append_nil]
  exact reverse_countFrom _ (by omega)

end Number

/-! ## elements -/

namespace BinaryOp

variable {start stop : Number} {inclusive : Bool} {items : List Number}

/-- The operator that builds a range with its end, or without it. -/
def rangeOp (inclusive : Bool) : BinaryOp := if inclusive then rangeInclusive else range

theorem apply_rangeOp (inclusive : Bool) {left right : Value} (hl : left.number = .ok start)
    (hr : right.number = .ok stop) :
    (rangeOp inclusive).apply left right = (rangeItems start stop inclusive).map .array := by
  have hitems : (do
      let l ← left.number
      let r ← right.number
      return Value.array (← rangeItems l r inclusive)) =
        (rangeItems start stop inclusive).map Value.array := by
    rw [Except.bind_of_ok hl, Except.bind_of_ok hr]
    cases rangeItems start stop inclusive <;> rfl
  cases inclusive <;> exact hitems

/-- The number of elements of a range, over the integers. -/
def exactLength (start stop : Number) (inclusive : Bool) : Nat :=
  (stop.toInt - start.toInt).natAbs + inclusive.toNat

theorem toNat_rangeLength (start stop : Number) (inclusive : Bool) :
    (rangeLength start stop inclusive).toNat =
      min (exactLength start stop inclusive) (2 ^ 64 - 1) := by
  have hone : (if inclusive then (1 : UInt64) else 0).toNat = inclusive.toNat := by
    cases inclusive <;> rfl
  rw [rangeLength, Number.toNat_saturatingAdd, Number.toNat_distance, hone, exactLength]

/-- A range is too large for its word exactly if it is too large over the integers. -/
theorem maxRangeLength_lt_rangeLength_iff :
    maxRangeLength < rangeLength start stop inclusive ↔
      2 ^ 24 < exactLength start stop inclusive := by
  have hlimit : maxRangeLength.toNat = 2 ^ 24 := rfl
  rw [UInt64.lt_iff_toNat_lt, toNat_rangeLength, hlimit]
  omega

/-- The numbers towards the end of a range are the integers towards it. -/
theorem map_toInt_countTowards (hne : start ≠ stop ∨ inclusive = true) :
    (countTowards start stop inclusive).map Int64.toInt =
      Number.countFrom start.toInt (start < stop) (exactLength start stop inclusive) := by
  unfold countTowards exactLength
  split
  · next hcompare =>
    have hlt := Std.compare_eq_lt.mp hcompare
    rw [Number.map_toInt_upTo, List.map_nil, List.append_nil, decide_eq_true hlt,
      Bool.toNat_false]
    rw [Int64.lt_iff_toInt_lt] at hlt
    congr 1
    omega
  · next hcompare =>
    have hlt := Std.compare_eq_lt.mp hcompare
    rw [Number.map_toInt_through, List.map_nil, List.append_nil, decide_eq_true hlt,
      Bool.toNat_true]
    rw [Int64.lt_iff_toInt_lt] at hlt
    congr 1
    omega
  · next hcompare =>
    have hgt := Std.compare_eq_gt.mp hcompare
    have hnlt : ¬start < stop := Int64.not_lt.mpr (Int64.le_of_lt hgt)
    have hsucc := Number.toInt_add_one_of_lt hgt
    rw [Int64.lt_iff_toInt_lt] at hgt
    have hle : stop + 1 ≤ start := Int64.le_iff_toInt_le.mpr (by omega)
    rw [Number.map_toInt_reverse_through hle, decide_eq_false hnlt, Bool.toNat_false]
    congr 1
    omega
  · next hcompare =>
    have hgt := Std.compare_eq_gt.mp hcompare
    have hnlt : ¬start < stop := Int64.not_lt.mpr (Int64.le_of_lt hgt)
    rw [Number.map_toInt_reverse_through (Int64.le_of_lt hgt), decide_eq_false hnlt,
      Bool.toNat_true]
    rw [Int64.lt_iff_toInt_lt] at hgt
    congr 1
    omega
  · next hcompare =>
    -- With equal ends the range has an element only if the end counts.
    obtain rfl := Std.compare_eq_iff_eq.mp hcompare
    obtain rfl := hne.resolve_left (· rfl)
    rw [Number.map_toInt_reverse_through (Int64.le_refl _), decide_eq_false Int64.lt_irrefl,
      Bool.toNat_true]
    congr 1
    omega

/-- **A range is the same range over the integers**, unless it is empty or too large. -/
theorem rangeItems_eq_ok_iff :
    rangeItems start stop inclusive = .ok items ↔
      (start ≠ stop ∨ inclusive = true) ∧ exactLength start stop inclusive ≤ 2 ^ 24 ∧
        items.map Int64.toInt =
          Number.countFrom start.toInt (start < stop) (exactLength start stop inclusive) := by
  have hinj : Function.Injective Int64.toInt := fun a b => Int64.toInt_inj.mp
  unfold rangeItems
  split
  · next h => simp [h.1, h.2]
  · next h =>
    have hne : start ≠ stop ∨ inclusive = true := by simpa [or_iff_not_imp_left] using h
    rw [← map_toInt_countTowards hne, (List.map_injective_iff.mpr hinj).eq_iff, ← Nat.not_lt,
      ← maxRangeLength_lt_rangeLength_iff]
    dsimp only
    split
    · next hlt => simp [hlt]
    · next hle => simp [hne, hle, eq_comm]

theorem length_of_rangeItems (h : rangeItems start stop inclusive = .ok items) :
    items.length = (stop.toInt - start.toInt).natAbs + inclusive.toNat := by
  obtain ⟨-, -, hitems⟩ := rangeItems_eq_ok_iff.mp h
  simpa [exactLength] using congrArg List.length hitems

/-- Over the integers a range goes on by one, and it never leaves the numbers. -/
theorem toInt_getElem_of_rangeItems (h : rangeItems start stop inclusive = .ok items) (i : Nat)
    (hi : i < items.length) :
    items[i].toInt = if start < stop then start.toInt + i else start.toInt - i := by
  obtain ⟨-, -, hitems⟩ := rangeItems_eq_ok_iff.mp h
  have hget := List.getElem_of_eq hitems (List.length_map _ ▸ hi)
  simpa [Number.countFrom] using hget

theorem ne_nil_of_rangeItems (h : rangeItems start stop inclusive = .ok items) : items ≠ [] := by
  intro hnil
  have hlength := length_of_rangeItems h
  rw [hnil, List.length_nil] at hlength
  obtain ⟨hne | rfl, -, -⟩ := rangeItems_eq_ok_iff.mp h
  · have hints : start.toInt ≠ stop.toInt := fun heq => hne (Int64.toInt_inj.mp heq)
    omega
  · rw [Bool.toNat_true] at hlength
    omega

/-- The elements of a range are the numbers between its ends. -/
theorem mem_rangeItems_iff (h : rangeItems start stop inclusive = .ok items) {n : Number} :
    n ∈ items ↔ Number.Between start stop inclusive n := by
  have hget := toInt_getElem_of_rangeItems h
  have hlength := length_of_rangeItems h
  have hmem : n ∈ items ↔ ∃ i, i < items.length ∧
      n.toInt = if start < stop then start.toInt + i else start.toInt - i := by
    rw [List.mem_iff_getElem]
    constructor
    · rintro ⟨i, hi, rfl⟩
      exact ⟨i, hi, hget i hi⟩
    · rintro ⟨i, hi, hn⟩
      exact ⟨i, hi, Int64.toInt_inj.mp ((hget i hi).trans hn.symm)⟩
  rw [hmem, hlength, Number.between_iff]
  clear hmem
  split
  · next hup =>
    rw [Int64.lt_iff_toInt_lt] at hup
    constructor
    · rintro ⟨i, hi, hn⟩
      omega
    · rintro ⟨hlow, hhigh⟩
      exact ⟨(n.toInt - start.toInt).toNat, by omega, by omega⟩
  · next hdown =>
    rw [Int64.lt_iff_toInt_lt] at hdown
    constructor
    · rintro ⟨i, hi, hn⟩
      omega
    · rintro ⟨hhigh, hlow⟩
      exact ⟨(start.toInt - n.toInt).toNat, by omega, by omega⟩

/-- Whether a scalar is an element of a range. -/
theorem apply_isIn_of_rangeItems (h : rangeItems start stop inclusive = .ok items) (x : Scalar) :
    ∃ b, isIn.apply (.scalar x) (.array items) = .ok (.bool b) ∧
      (b = true ↔ Number.Between start stop inclusive x.number) := by
  refine ⟨items.contains x.number, rfl, ?_⟩
  rw [List.contains_iff_mem, mem_rangeItems_iff h]

/-- A range with different ends that are not too far apart has elements. -/
theorem exists_rangeItems (inclusive : Bool) (hne : start ≠ stop)
    (hsmall : (stop.toInt - start.toInt).natAbs < 2 ^ 24) :
    ∃ items, rangeItems start stop inclusive = .ok items := by
  have hone := inclusive.toNat_le
  exact ⟨_, rangeItems_eq_ok_iff.mpr
    ⟨.inl hne, by rw [exactLength]; omega, map_toInt_countTowards (.inl hne)⟩⟩

/-- A range can be cut at a number inside it. -/
theorem rangeItems_append {middle : Number} (inclusive : Bool)
    (hmiddle : start < middle ∧ middle < stop ∨ stop < middle ∧ middle < start)
    (hsmall : (stop.toInt - start.toInt).natAbs < 2 ^ 24) :
    ∃ xs ys, rangeItems start middle false = .ok xs ∧ rangeItems middle stop inclusive = .ok ys ∧
      rangeItems start stop inclusive = .ok (xs ++ ys) := by
  simp only [Int64.lt_iff_toInt_lt] at hmiddle
  obtain ⟨xs, hxs⟩ : ∃ xs, rangeItems start middle false = .ok xs :=
    exists_rangeItems false (by rintro rfl; omega) (by omega)
  obtain ⟨ys, hys⟩ : ∃ ys, rangeItems middle stop inclusive = .ok ys :=
    exists_rangeItems inclusive (by rintro rfl; omega) (by omega)
  obtain ⟨all, hall⟩ : ∃ all, rangeItems start stop inclusive = .ok all :=
    exists_rangeItems inclusive (by rintro rfl; omega) hsmall
  have hlength := length_of_rangeItems hxs
  rw [Bool.toNat_false] at hlength
  have heq : all = xs ++ ys := by
    refine List.ext_getElem ?_ fun i hi hi' => Int64.toInt_inj.mp ?_
    · rw [List.length_append, hlength, length_of_rangeItems hys, length_of_rangeItems hall]
      omega
    · by_cases hpart : i < xs.length
      · rw [List.getElem_append_left hpart, toInt_getElem_of_rangeItems hall,
          toInt_getElem_of_rangeItems hxs]
        simp only [Int64.lt_iff_toInt_lt]
        split <;> split <;> omega
      · -- The second part goes on where the first would have come to its end.
        rw [List.getElem_append_right (Nat.le_of_not_lt hpart), toInt_getElem_of_rangeItems hall,
          toInt_getElem_of_rangeItems hys]
        simp only [Int64.lt_iff_toInt_lt]
        split <;> split <;> omega
  exact ⟨xs, ys, hxs, hys, heq ▸ hall⟩

/-! ## what can come of a range -/

theorem rangeItems_eq_emptyRange_iff :
    rangeItems start stop inclusive = .error .emptyRange ↔ start = stop ∧ inclusive = false := by
  unfold rangeItems
  split
  · next h => simp [h.1, h.2]
  · next h =>
    dsimp only
    split <;> simp [h]

theorem rangeItems_eq_rangeTooLarge_iff {length limit : Nat} :
    rangeItems start stop inclusive = .error (.rangeTooLarge length limit) ↔
      2 ^ 24 < exactLength start stop inclusive ∧
        length = min (exactLength start stop inclusive) (2 ^ 64 - 1) ∧ limit = 2 ^ 24 := by
  have hlimit : maxRangeLength.toNat = 2 ^ 24 := rfl
  rw [← maxRangeLength_lt_rangeLength_iff, ← toNat_rangeLength]
  unfold rangeItems
  split
  · next h =>
    obtain ⟨rfl, rfl⟩ := h
    have hzero : exactLength start start false = 0 := by simp [exactLength]
    simp [maxRangeLength_lt_rangeLength_iff, hzero]
  · dsimp only
    split
    · next hlt => simp [hlt, hlimit, eq_comm]
    · next hle => simp [hle]

/-- **Ranges are exact**, for all ends.  With `n` elements over the integers, a range is
empty exactly if its ends are equal and the end does not count; it is too large exactly if
`n` is above the limit, and then `n` is reported, as far as a word can hold it; and in all
other cases it has `n` elements, which go on by one from the start.  No step leaves the
numbers or the words on the way: neither the distance of the ends, nor the length made of
it, nor the number above the end, nor a step from one element to the next, in either
direction.  So a scalar is in a range exactly if the number it stands for is between the
ends. -/
theorem rangeItems_exact (start stop : Number) (inclusive : Bool) :
    let n : Nat := (stop.toInt - start.toInt).natAbs + if inclusive then 1 else 0
    (rangeItems start stop inclusive = .error .emptyRange ↔ start = stop ∧ inclusive = false) ∧
    (∀ length limit, rangeItems start stop inclusive = .error (.rangeTooLarge length limit) ↔
      2 ^ 24 < n ∧ length = min n (2 ^ 64 - 1) ∧ limit = 2 ^ 24) ∧
    (¬(start = stop ∧ inclusive = false) → n ≤ 2 ^ 24 →
      ∃ items, rangeItems start stop inclusive = .ok items ∧ items.length = n ∧
        ∀ i (hi : i < items.length),
          items[i].toInt = if start < stop then start.toInt + i else start.toInt - i) ∧
    ((start.distance stop).toNat = (stop.toInt - start.toInt).natAbs ∧
      (rangeLength start stop inclusive).toNat = min n (2 ^ 64 - 1) ∧
      (stop < start → (stop + 1).toInt = stop.toInt + 1) ∧
      ∀ a b : Number, a < b → (a + 1).toInt = a.toInt + 1 ∧ (b - 1).toInt = b.toInt - 1) ∧
    ∀ left right built : Value, left.number = .ok start → right.number = .ok stop →
      (rangeOp inclusive).apply left right = .ok built → ∀ x : Scalar,
        ∃ b, isIn.apply (.scalar x) built = .ok (.bool b) ∧
          (b = true ↔ Number.Between start stop inclusive x.number) := by
  intro n
  have hn : exactLength start stop inclusive = n := by
    cases inclusive <;> rfl
  refine ⟨rangeItems_eq_emptyRange_iff, ?_, ?_, ⟨Number.toNat_distance start stop, ?_,
    Number.toInt_add_one_of_lt, fun _ _ h =>
      ⟨Number.toInt_add_one_of_lt h, Number.toInt_sub_one_of_lt h⟩⟩, ?_⟩
  · intro length limit
    rw [rangeItems_eq_rangeTooLarge_iff, hn]
  · intro hne hle
    have hne' : start ≠ stop ∨ inclusive = true := by simpa [or_iff_not_imp_left] using hne
    have hitems := rangeItems_eq_ok_iff.mpr
      ⟨hne', hn.trans_le hle, map_toInt_countTowards hne'⟩
    exact ⟨_, hitems, (length_of_rangeItems hitems).trans hn,
      toInt_getElem_of_rangeItems hitems⟩
  · rw [toNat_rangeLength, hn]
  · intro left right built hl hr hbuilt x
    rw [apply_rangeOp inclusive hl hr] at hbuilt
    cases hitems : rangeItems start stop inclusive with
    | ok items =>
        rw [hitems] at hbuilt
        cases hbuilt
        exact apply_isIn_of_rangeItems hitems x
    | error cause =>
        rw [hitems] at hbuilt
        contradiction

/-- The widest range of all has one element more than a word can hold; two elements fit
above the lowest number; and `'b'` is in the range from `'c'` down to 97. -/
theorem rangeItems_exact_extremes :
    rangeItems .minValue .maxValue true = .error (.rangeTooLarge (2 ^ 64 - 1) (2 ^ 24)) ∧
    (∃ items, rangeItems (.minValue + 2) .minValue false = .ok items ∧ items.length = 2 ∧
      ∀ i (hi : i < items.length), items[i].toInt = -2 ^ 63 + 2 - i) ∧
    ∃ b, isIn.apply (.scalar (.char 'b')) (.array [99, 98]) = .ok (.bool b) ∧
      (b = true ↔ Number.Between 99 97 false 98) := by
  refine ⟨?_, ?_, ?_⟩
  · obtain ⟨-, hlarge, -⟩ := rangeItems_exact .minValue .maxValue true
    exact (hlarge _ _).mpr ⟨by decide, by decide, rfl⟩
  · obtain ⟨-, -, hitems, -⟩ := rangeItems_exact (.minValue + 2) .minValue false
    exact hitems (by decide) (by decide)
  · obtain ⟨-, -, -, -, hmem⟩ := rangeItems_exact 99 97 false
    exact hmem (.scalar (.char 'c')) (.int 97) _ rfl rfl (by cbv) (.char 'b')

end BinaryOp

end LineScript
