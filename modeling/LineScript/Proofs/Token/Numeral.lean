import LineScript.Proofs.Number
import LineScript.Token.Lexer

/-!
# LineScript.Proofs.Token.Numeral

Integer literals.  A numeral beyond the numbers follows the pattern of integers and has no
token all the same, so that only the test for what looks like a numeral keeps it from being
a word.  Both accept the same pieces (`integer_eq_looksNumeric`), and these are exactly the
numerals.

* `classify_of_fits`, `classify_of_not_fits` — a numeral is the number that it is worth, or
  refused;
* `classify_of_not_numeral` — no other piece is a number or refused;
* `tokenizeLine_eq_mapM` — a line is read piece by piece;
* `numerals_exact_or_rejected` — all in one.
-/

namespace LineScript

namespace Token

open Decimal (Numeral)

/-! ## pieces -/

theorem classify_of_fits {m : Numeral} (h : Number.Fits m.value) :
    ∃ n : Number, n.toInt = m.value ∧ classify m.chars = .ok (.literal (.int n)) := by
  obtain ⟨n, hn, hvalue⟩ := Number.exists_of_fits h
  refine ⟨n, hvalue, ?_⟩
  rw [classify_of_read? (Decimal.read?_chars m), hn]

theorem classify_of_not_fits {m : Numeral} (h : ¬Number.Fits m.value) :
    classify m.chars = .error (.literalTooLarge (String.ofList m.chars)) := by
  rw [classify_of_read? (Decimal.read?_chars m), Number.ofInt?_of_not_fits h]

theorem symbol?_ne_int (s : String) (n : Number) : symbol? s ≠ some (.literal (.int n)) := by
  unfold symbol?
  split
  · simp
  · split <;> simp

/-- No rule but that of integers gives a number. -/
theorem nonInteger?_ne_int (piece : List Char) (n : Number) :
    nonInteger? piece ≠ some (.literal (.int n)) := by
  rw [nonInteger?_eq]
  split
  · simp
  · cases hsymbol : symbol? (String.ofList piece) with
    | some t =>
        rw [Option.some_or, ← hsymbol]
        exact symbol?_ne_int _ n
    | none =>
        rw [Option.none_or]
        split <;> simp

/-- A piece that is no numeral is neither a number nor refused. -/
theorem classify_of_not_numeral {piece : List Char} (hne : piece ≠ [])
    (h : ∀ m : Numeral, m.chars ≠ piece) :
    ∃ t, classify piece = .ok t ∧ ∀ n, t ≠ .literal (.int n) := by
  have hread : Decimal.read? piece = none := by
    rw [Option.eq_none_iff_forall_ne_some]
    intro z hz
    obtain ⟨m, hm, -⟩ := Decimal.read?_eq_some_iff.mp hz
    exact h m hm
  refine ⟨_, classify_of_read?_eq_none hne hread, fun n heq => ?_⟩
  cases hother : nonInteger? piece with
  | some t =>
      rw [hother, Option.getD_some] at heq
      exact nonInteger?_ne_int piece n (hother.trans (congrArg some heq))
  | none => simp [hother] at heq

/-! ## lines -/

/-- The pieces of a line that are read: all of them, or those before the first comment. -/
def pieces (text : List Char) : List (List Char) :=
  match Text.trim text with
  | [] => []
  | cs => ((isolateRanges cs).splitOn ' ').takeWhile fun piece => !startsComment piece

theorem classifyPieces_eq_mapM (ps : List (List Char)) :
    classifyPieces ps = (ps.takeWhile fun piece => !startsComment piece).mapM classify := by
  induction ps with
  | nil => rfl
  | cons piece ps ih =>
      rw [classifyPieces, ih]
      by_cases hcomment : startsComment piece = true
      · rw [if_pos hcomment, List.takeWhile_cons_of_neg (by simp [hcomment]), List.mapM_nil]
        rfl
      · rw [if_neg hcomment, List.takeWhile_cons_of_pos (by simp [hcomment]), List.mapM_cons]

/-- The tokens of a line are those of its pieces, and it fails at the first that fails. -/
theorem tokenizeLine_eq_mapM (text : String) (number : Nat) :
    tokenizeLine text number = ((pieces text.toList).mapM classify).mapError (⟨·, number⟩) := by
  rw [tokenizeLine, scanLine, pieces]
  cases Text.trim text.toList with
  | nil => rfl
  | cons c cs => exact congrArg (Except.mapError _) (classifyPieces_eq_mapM _)

/-- **Integer literals are exact or rejected, never words**: a numeral is the number that it
is worth, or too large if there is none, and no other piece is a number or fails, unless it
is empty.  A line is read piece by piece. -/
theorem numerals_exact_or_rejected :
    (∀ m : Numeral,
      (Number.Fits m.value →
        ∃ n : Number, n.toInt = m.value ∧ classify m.chars = .ok (.literal (.int n))) ∧
      (¬Number.Fits m.value →
        classify m.chars = .error (.literalTooLarge (String.ofList m.chars)))) ∧
    (∀ piece, piece ≠ [] → (∀ m : Numeral, m.chars ≠ piece) →
      ∃ t, classify piece = .ok t ∧ ∀ n, t ≠ .literal (.int n)) ∧
    ∀ text number, tokenizeLine text number =
      ((pieces text.toList).mapM classify).mapError (⟨·, number⟩) := by
  refine ⟨fun m => ⟨?_, ?_⟩, fun piece hne h => ?_, tokenizeLine_eq_mapM⟩
  · exact classify_of_fits
  · exact classify_of_not_fits
  · exact classify_of_not_numeral hne h

/-- The least number, one beyond the greatest after zeros and a sign, a digit before a letter,
and a line on which the second of these stands at the end of a range. -/
theorem numerals_exact_or_rejected_bounds :
    let least : Numeral :=
      ⟨.minus, [9, 2, 2, 3, 3, 7, 2, 0, 3, 6, 8, 5, 4, 7, 7, 5, 8, 0, 8], by simp⟩
    let beyond : Numeral := ⟨.plus, 0 :: 0 :: least.digits, by simp⟩
    (Number.Fits least.value ∧ ∃ n : Number, n.toInt = -2 ^ 63 ∧
      classify "-9223372036854775808".toList = .ok (.literal (.int n))) ∧
    (¬Number.Fits beyond.value ∧ classify "+009223372036854775808".toList =
      .error (.literalTooLarge "+009223372036854775808")) ∧
    (['1', 'x'] ≠ [] ∧ (∀ m : Numeral, m.chars ≠ ['1', 'x']) ∧
      ∃ t, classify ['1', 'x'] = .ok t ∧ ∀ n, t ≠ .literal (.int n)) ∧
    tokenizeLine "n := 1x + -07..+009223372036854775808" 3 =
      .error ⟨.literalTooLarge "+009223372036854775808", 3⟩ := by
  intro least beyond
  obtain ⟨hnumeral, hother, hline⟩ := numerals_exact_or_rejected
  have hfits : Number.Fits least.value := by decide
  have hbeyond : ¬Number.Fits beyond.value := by decide
  have hword : ∀ m : Numeral, m.chars ≠ ['1', 'x'] := by
    intro m hm
    have hread := Decimal.read?_chars m
    rw [hm] at hread
    contradiction
  exact ⟨⟨hfits, (hnumeral least).1 hfits⟩, ⟨hbeyond, (hnumeral beyond).2 hbeyond⟩,
    ⟨by simp, hword, hother ['1', 'x'] (by simp) hword⟩, (hline _ 3).trans (by cbv)⟩

end Token

end LineScript
