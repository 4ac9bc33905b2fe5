import LineScript.Token.Lexer
import Mathlib

/-!
# LineScript.Proofs.Token.Comment

What the tokens of a line do not depend on: blank characters at its ends, and a
comment.  A comment starts a piece of its own, so that neither setting range
operators apart nor cutting at spaces moves anything across its start.

* `Token.scanLine_inert` — a line of blank characters or of a comment has no tokens;
* `Token.scanLine_append_comment` — a comment at the end of a line adds none.
-/

namespace LineScript

namespace Text

/-- From an element that fails `p` on, dropping from the end does not reach what is
before it. -/
theorem dropRightWhile_append_cons {α : Type} {p : α → Bool} {x : α} (h : p x = false)
    (xs ys : List α) : dropRightWhile p (xs ++ x :: ys) = xs ++ x :: dropRightWhile p ys := by
  simp only [dropRightWhile, List.reverse_append, List.reverse_cons, List.append_assoc,
    List.singleton_append]
  rw [List.dropWhile_append]
  split
  · next hnil =>
    rw [List.isEmpty_iff] at hnil
    rw [List.dropWhile_cons_of_neg (by simp [h]), hnil]
    simp
  · simp

/-- Around a character that is not blank, each side is trimmed on its own. -/
theorem trim_append_cons {c : Char} (h : isBlank c = false) (cs ds : List Char) :
    trim (cs ++ c :: ds) = cs.dropWhile isBlank ++ c :: dropRightWhile isBlank ds := by
  have hdrop : (cs ++ c :: ds).dropWhile isBlank = cs.dropWhile isBlank ++ c :: ds := by
    rw [List.dropWhile_append]
    split
    · next hnil =>
      rw [List.isEmpty_iff] at hnil
      rw [hnil, List.dropWhile_cons_of_neg (by simp [h]), List.nil_append]
    · rfl
  rw [trim, hdrop, dropRightWhile_append_cons h]

end Text

namespace Token

open Text (isBlank trim)

/-- A text that says nothing: blank characters, and perhaps a comment after them. -/
inductive Inert : List Char → Prop where
  | blank {cs : List Char} (h : ∀ c ∈ cs, isBlank c = true) : Inert cs
  | comment {lead : List Char} (h : ∀ c ∈ lead, isBlank c = true) (text : List Char) :
      Inert (lead ++ '/' :: '/' :: text)

theorem isBlank_slash : isBlank '/' = false := by simp [isBlank, Text.blankRanges]

/-! ## blank characters -/

theorem scanLine_congr {cs ds : List Char} (h : trim cs = trim ds) : scanLine cs = scanLine ds := by
  rw [scanLine, scanLine, h]

theorem scanLine_append_blank {cs trail : List Char} (h : ∀ c ∈ trail, isBlank c = true) :
    scanLine (cs ++ trail) = scanLine cs := by
  have htrim : trim ([] ++ cs ++ trail) = trim cs := Text.trim_append (by simp) h
  exact scanLine_congr htrim

theorem scanLine_append_lineFeed (cs : List Char) : scanLine (cs ++ ['\n']) = scanLine cs :=
  scanLine_append_blank (by simp [isBlank, Text.blankRanges])

theorem scanLine_append_lineEnd (cs : List Char) : scanLine (cs ++ ['\r', '\n']) = scanLine cs :=
  scanLine_append_blank (by simp [isBlank, Text.blankRanges])

theorem scanLine_blank {cs : List Char} (h : ∀ c ∈ cs, isBlank c = true) : scanLine cs = .ok [] := by
  have hblank : scanLine ([] ++ cs) = scanLine [] := scanLine_append_blank h
  exact hblank

/-- The end of a line, which is cut off, does not matter to its tokens. -/
theorem scanLine_chomp (cs : List Char) : scanLine (Text.chomp cs) = scanLine cs := by
  unfold Text.chomp
  split
  · next rest h =>
    obtain rfl : cs = rest.reverse ++ ['\r', '\n'] := by simpa using congrArg List.reverse h
    exact (scanLine_append_lineEnd _).symm
  · next rest _ h =>
    obtain rfl : cs = rest.reverse ++ ['\n'] := by simpa using congrArg List.reverse h
    exact (scanLine_append_lineFeed _).symm
  · rfl

/-! ## pieces -/

theorem splitOn_append_space (xs ys : List Char) :
    (xs ++ ' ' :: ys).splitOn ' ' = xs.splitOn ' ' ++ ys.splitOn ' ' :=
  List.splitOnP_append_cons xs ys (by simp)

theorem splitOn_cons_of_ne {c : Char} (h : c ≠ ' ') (cs : List Char) :
    (c :: cs).splitOn ' ' = (cs.splitOn ' ').modifyHead (c :: ·) := by
  simp [List.splitOn, List.splitOnP_cons_eq_if_modifyHead, h]

/-! ## the start of a comment -/

theorem exists_of_append_space {cs rest tail : List Char} {c : Char} (hc : c ≠ ' ')
    (h : cs ++ ' ' :: rest = c :: tail) : ∃ more, cs = c :: more ∧ more ++ ' ' :: rest = tail := by
  cases cs with
  | nil =>
      rw [List.nil_append, List.cons.injEq] at h
      exact absurd h.1.symm hc
  | cons d more =>
      rw [List.cons_append, List.cons.injEq] at h
      exact ⟨more, by rw [h.1], h.2⟩

/-- Setting range operators apart does not reach across a space. -/
theorem isolateFrom_append_space (before : Option Char) (cs rest : List Char) :
    isolateFrom before (cs ++ ' ' :: rest) =
      isolateFrom before cs ++ ' ' :: isolateFrom (some ' ') rest := by
  have hgap : ∀ more, gapBefore (more ++ ' ' :: rest) = gapBefore more := by
    intro more
    cases more <;> rfl
  fun_induction isolateFrom before cs with
  | case1 before more ih => simp [isolateFrom, hgap, ih]
  | case2 before more hne ih =>
      rw [List.cons_append, List.cons_append, isolateFrom, hgap, ih]
      · simp
      · intro tail h
        obtain ⟨more', rfl, -⟩ := exists_of_append_space (by decide) h
        exact hne more' rfl
  | case3 before c more hne hne' ih =>
      rw [List.cons_append, isolateFrom, ih, List.cons_append]
      · rintro tail rfl h
        obtain ⟨more', rfl, h⟩ := exists_of_append_space (by decide) h
        exact hne' more' rfl rfl
      · rintro tail rfl h
        obtain ⟨more', rfl, h⟩ := exists_of_append_space (by decide) h
        exact hne' more' rfl rfl
  | case4 before => rfl

/-- The pieces before a comment are all that is read. -/
theorem classifyPieces_append_comment {comment : List Char} (h : startsComment comment = true)
    (pieces rest : List (List Char)) :
    classifyPieces (pieces ++ comment :: rest) = classifyPieces pieces := by
  induction pieces with
  | nil => simp [classifyPieces, h]
  | cons piece pieces ih => rw [List.cons_append, classifyPieces, ih, classifyPieces]

/-- When a line is cut at spaces, what starts with two slashes starts with a comment. -/
theorem exists_splitOn_eq_comment (before : Option Char) (text : List Char) :
    ∃ comment rest, (isolateFrom before ('/' :: '/' :: text)).splitOn ' ' = comment :: rest ∧
      startsComment comment = true := by
  have hcopy : isolateFrom before ('/' :: '/' :: text) =
      '/' :: '/' :: isolateFrom (some '/') text := by simp [isolateFrom]
  obtain ⟨first, rest, hfirst⟩ :=
    List.exists_cons_of_ne_nil (List.splitOn_ne_nil ' ' (isolateFrom (some '/') text))
  refine ⟨'/' :: '/' :: first, rest, ?_, by simp [startsComment]⟩
  rw [hcopy, splitOn_cons_of_ne (by decide), splitOn_cons_of_ne (by decide), hfirst]
  rfl

/-- What is read of a line that is not trimmed further, up to a comment. -/
theorem classifyPieces_of_comment (text : List Char) :
    classifyPieces ((isolateRanges ('/' :: '/' :: text)).splitOn ' ') = .ok [] := by
  obtain ⟨comment, rest, hpieces, hcomment⟩ := exists_splitOn_eq_comment none text
  rw [isolateRanges, hpieces]
  exact classifyPieces_append_comment hcomment [] rest

theorem classifyPieces_append_space_comment (cs text : List Char) :
    classifyPieces ((isolateRanges (cs ++ ' ' :: '/' :: '/' :: text)).splitOn ' ') =
      classifyPieces ((isolateRanges cs).splitOn ' ') := by
  obtain ⟨comment, rest, hpieces, hcomment⟩ := exists_splitOn_eq_comment (some ' ') text
  rw [isolateRanges, isolateFrom_append_space, splitOn_append_space, hpieces,
    classifyPieces_append_comment hcomment, isolateRanges]

/-! ## lines -/

theorem scanLine_of_trim_ne_nil {cs : List Char} (h : trim cs ≠ []) :
    scanLine cs = classifyPieces ((isolateRanges (trim cs)).splitOn ' ') := by
  unfold scanLine
  split
  · contradiction
  · rfl

theorem scanLine_comment {lead : List Char} (h : ∀ c ∈ lead, isBlank c = true) (text : List Char) :
    scanLine (lead ++ '/' :: '/' :: text) = .ok [] := by
  have hlead : lead.dropWhile isBlank = [] := by simpa using h
  have htrim : trim (lead ++ '/' :: '/' :: text) =
      '/' :: '/' :: Text.dropRightWhile isBlank text := by
    rw [Text.trim_append_cons isBlank_slash, hlead]
    exact congrArg ('/' :: ·) (Text.dropRightWhile_append_cons isBlank_slash [] text)
  rw [scanLine_of_trim_ne_nil (by simp [htrim]), htrim, classifyPieces_of_comment]

/-- **A line that says nothing** has no tokens. -/
theorem scanLine_inert {cs : List Char} (h : Inert cs) : scanLine cs = .ok [] := by
  cases h with
  | blank h => exact scanLine_blank h
  | comment h text => exact scanLine_comment h text

/-- **A comment at the end of a line** adds no tokens. -/
theorem scanLine_append_comment {cs : List Char} (h : ∀ c ∈ cs.getLast?, isBlank c = false)
    (text : List Char) : scanLine (cs ++ ' ' :: '/' :: '/' :: text) = scanLine cs := by
  rcases List.eq_nil_or_concat' cs with rfl | ⟨ds, c, rfl⟩
  · have hcomment : scanLine ([' '] ++ '/' :: '/' :: text) = .ok [] := scanLine_comment (by simp) text
    exact hcomment
  · have hc : isBlank c = false := h c (by simp)
    have hcomment : Text.dropRightWhile isBlank (' ' :: '/' :: '/' :: text) =
        ' ' :: '/' :: '/' :: Text.dropRightWhile isBlank text :=
      Text.dropRightWhile_append_cons isBlank_slash [' ', '/'] text
    have htrim : trim (ds ++ [c]) = ds.dropWhile isBlank ++ [c] :=
      Text.trim_append_cons hc ds []
    have htrim' : trim (ds ++ [c] ++ ' ' :: '/' :: '/' :: text) =
        ds.dropWhile isBlank ++ [c] ++ ' ' :: '/' :: '/' :: Text.dropRightWhile isBlank text := by
      rw [List.append_assoc, List.singleton_append, Text.trim_append_cons hc, hcomment]
      simp
    rw [scanLine_of_trim_ne_nil (by rw [htrim']; simp), scanLine_of_trim_ne_nil (by rw [htrim]; simp),
      htrim', htrim, classifyPieces_append_space_comment]

end Token

end LineScript
