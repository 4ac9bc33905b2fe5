import LineScript.Proofs.Eval.Simulation
import LineScript.Proofs.Renaming.Running
import LineScript.Proofs.Token.Comment

/-!
# LineScript.Proofs.Text.Remarks

Blank lines and comments in a whole text.  Neither changes what a program does; lines
that are put between others only move the numbers of the lines after them.

* `Text.splitAfter_append` — the lines of a text in two parts;
* `Padded.tokenizeLines_eq` — lines of which some have no tokens;
* `Remarked.tokenize_eq` — the lines of tokens of a text with remarks;
* `runSource_remarked` — what it does.
-/

namespace LineScript

/-! ## the lines of a text in parts -/

namespace Text

/-- The text is empty or ends with the end of a line. -/
def EndsLine (cs : List Char) : Prop := ∀ c ∈ cs.getLast?, c = '\n'

theorem splitAfter_ne_nil {cs : List Char} (h : cs ≠ []) : splitAfter '\n' cs ≠ [] := by
  intro hnil
  have hflat := flatten_splitAfter '\n' cs
  rw [hnil] at hflat
  exact h hflat.symm

theorem splitAfter_append {cs : List Char} (h : EndsLine cs) (ds : List Char) :
    splitAfter '\n' (cs ++ ds) = splitAfter '\n' cs ++ splitAfter '\n' ds := by
  induction cs with
  | nil => rfl
  | cons c cs ih =>
      by_cases hcs : cs = []
      · subst hcs
        obtain rfl : c = '\n' := h c rfl
        rfl
      · have hends : EndsLine cs := by
          intro d hd
          exact h d (by rw [List.getLast?_cons_of_ne_nil hcs]; exact hd)
        have hne := splitAfter_ne_nil hcs
        rw [List.cons_append, splitAfter, splitAfter, ih hends]
        split
        · rfl
        · cases hpieces : splitAfter '\n' cs with
          | nil => contradiction
          | cons piece pieces => rfl

/-- The first line of a text, with its end. -/
theorem splitAfter_line {cs : List Char} (h : '\n' ∉ cs) (ds : List Char) :
    splitAfter '\n' (cs ++ '\n' :: ds) = (cs ++ ['\n']) :: splitAfter '\n' ds := by
  induction cs with
  | nil => rfl
  | cons c cs ih =>
      rw [List.mem_cons, not_or] at h
      rw [List.cons_append, splitAfter, if_neg (Ne.symm h.1), ih h.2]
      rfl

/-- A text without the end of a line is one line, or none if it is empty. -/
theorem splitAfter_of_notMem {cs : List Char} (h : '\n' ∉ cs) :
    splitAfter '\n' cs = if cs = [] then [] else [cs] := by
  induction cs with
  | nil => rfl
  | cons c cs ih =>
      rw [List.mem_cons, not_or] at h
      rw [splitAfter, if_neg (Ne.symm h.1), ih h.2, if_neg (List.cons_ne_nil c cs)]
      by_cases hcs : cs = []
      · rw [if_pos hcs, hcs]
      · rw [if_neg hcs]

/-- A text is cut before its last line, if that lacks its end. -/
theorem exists_endsLine_append (cs : List Char) :
    ∃ before last, cs = before ++ last ∧ EndsLine before ∧ '\n' ∉ last := by
  induction cs with
  | nil => exact ⟨[], [], rfl, nofun, List.not_mem_nil⟩
  | cons c cs ih =>
      obtain ⟨before, last, rfl, hbefore, hlast⟩ := ih
      by_cases hnil : before = []
      · subst hnil
        by_cases hc : c = '\n'
        · exact ⟨[c], last, rfl, by simpa [EndsLine] using hc, hlast⟩
        · refine ⟨[], c :: last, rfl, hbefore, ?_⟩
          rw [List.mem_cons, not_or]
          exact ⟨Ne.symm hc, hlast⟩
      · refine ⟨c :: before, last, rfl, ?_, hlast⟩
        intro d hd
        rw [List.getLast?_cons_of_ne_nil hnil] at hd
        exact hbefore d hd

/-- What ends a line. -/
def LineEnd (cs : List Char) : Prop := cs = ['\n'] ∨ cs = ['\r', '\n']

theorem LineEnd.splitAfter_append {cs ending : List Char} (h : LineEnd ending) (hcs : '\n' ∉ cs)
    (ds : List Char) :
    splitAfter '\n' (cs ++ ending ++ ds) = (cs ++ ending) :: splitAfter '\n' ds := by
  rcases h with rfl | rfl
  · have hline := splitAfter_line hcs ds
    rwa [← List.singleton_append, ← List.append_assoc] at hline
  · have hfeed : '\n' ∉ cs ++ ['\r'] := by simpa using hcs
    have hline := splitAfter_line hfeed ds
    simpa using hline

theorem LineEnd.scanLine_append {ending : List Char} (h : LineEnd ending) (cs : List Char) :
    Token.scanLine (cs ++ ending) = Token.scanLine cs := by
  rcases h with rfl | rfl
  · exact Token.scanLine_append_lineFeed cs
  · exact Token.scanLine_append_lineEnd cs

/-- The line of text that a piece with its end is. -/
def lineOf (piece : List Char) : String := String.ofList (chomp piece)

theorem lines_eq (text : String) : lines text = (splitAfter '\n' text.toList).map lineOf := rfl

end Text

open Text (EndsLine splitAfter lineOf isBlank)

theorem tokenizeLine_lineOf (piece : List Char) (n : Nat) :
    tokenizeLine (lineOf piece) n = (Token.scanLine piece).mapError (⟨·, n⟩) := by
  rw [tokenizeLine, lineOf, String.toList_ofList, Token.scanLine_chomp]

/-! ## new numbers -/

namespace Renaming

theorem map_token_ofLine (number : Nat → Nat) (tokens : List Token) :
    tokens.map (ofLine number).token = tokens := by
  have htoken : (ofLine number).token = id := by
    funext t
    cases t <;> rfl
  rw [htoken, List.map_id]

theorem sourceLine_ofLine (number : Nat → Nat) (line : SourceLine) :
    (ofLine number).sourceLine line = ⟨number line.number, line.tokens⟩ := by
  rw [sourceLine, map_token_ofLine]
  rfl

end Renaming

/-! ## lines between lines -/

/-- Lines, counted from `n`, in a text where they are counted from `m` and have lines
without tokens between them.  `number` gives their new numbers. -/
inductive Padded (number : Nat → Nat) : Nat → List (List Char) → Nat → List (List Char) → Prop where
  | nil (n m : Nat) : Padded number n [] m []
  | inert {n m : Nat} {xs ys : List (List Char)} {y : List Char} (hy : Token.scanLine y = .ok [])
      (h : Padded number n xs (m + 1) ys) : Padded number n xs m (y :: ys)
  | line {n m : Nat} {xs ys : List (List Char)} {x y : List Char} (hnumber : number n = m)
      (hscan : Token.scanLine y = Token.scanLine x) (h : Padded number (n + 1) xs (m + 1) ys) :
      Padded number n (x :: xs) m (y :: ys)

namespace Padded

variable {number : Nat → Nat} {n m : Nat} {xs ys : List (List Char)}

/-- The same lines come first. -/
theorem append (zs : List (List Char)) (hnumber : ∀ i < zs.length, number (n + i) = m + i)
    (h : Padded number (n + zs.length) xs (m + zs.length) ys) :
    Padded number n (zs ++ xs) m (zs ++ ys) := by
  induction zs generalizing n m with
  | nil => exact h
  | cons z zs ih =>
      have hlength : (z :: zs).length = zs.length + 1 := List.length_cons
      refine .line (hnumber 0 (by omega)) rfl (ih ?_ ?_)
      · intro i hi
        have hnext := hnumber (i + 1) (by omega)
        rwa [Nat.add_comm i 1, ← Nat.add_assoc, ← Nat.add_assoc] at hnext
      · rwa [hlength, Nat.add_comm zs.length 1, ← Nat.add_assoc, ← Nat.add_assoc] at h

/-- **Lines without tokens** only change the numbers of the others. -/
theorem tokenizeLines_eq (h : Padded number n xs m ys) :
    tokenizeLines m (ys.map lineOf) = (tokenizeLines n (xs.map lineOf)).bimap
      ((Renaming.ofLine number).fault id) (List.map (Renaming.ofLine number).sourceLine) := by
  induction h with
  | nil => rfl
  | @inert n m xs ys y hy h ih =>
      have htokens : tokenizeLine (lineOf y) m = .ok [] := by
        rw [tokenizeLine_lineOf, hy]
        rfl
      rw [List.map_cons, tokenizeLines, htokens, ← ih]
      show (tokenizeLines (m + 1) (ys.map lineOf) >>= fun lines => .ok lines) = _
      cases tokenizeLines (m + 1) (ys.map lineOf) <;> rfl
  | @line n m xs ys x y hnumber hscan h ih =>
      have htokens : tokenizeLine (lineOf y) m =
          (tokenizeLine (lineOf x) n).bimap ((Renaming.ofLine number).fault id) id := by
        rw [tokenizeLine_lineOf, tokenizeLine_lineOf, hscan, ← hnumber]
        cases Token.scanLine x <;> rfl
      rw [List.map_cons, List.map_cons, tokenizeLines, tokenizeLines, htokens]
      refine Except.bimap_bind _ fun tokens => ?_
      rw [ih]
      refine Except.bimap_bind _ fun lines => ?_
      by_cases hempty : tokens.isEmpty = true
      · simp only [id_eq, if_pos hempty]
        rfl
      · simp only [id_eq, if_neg hempty, ← hnumber]
        show Except.ok _ = Except.ok (List.map _ (_ :: _))
        rw [List.map_cons, Renaming.sourceLine_ofLine]

/-- The same lines, with other numbers. -/
theorem moved {zs : List (List Char)} (hnumber : ∀ i < zs.length, number (n + i) = m + i) :
    Padded number n zs m zs := by
  have h : Padded number n (zs ++ []) m (zs ++ []) := append zs hnumber (.nil _ _)
  rwa [List.append_nil] at h

/-- A last line that lacks its end and has no tokens. -/
theorem last {line : List Char} (hline : Token.Inert line) (hfeed : '\n' ∉ line) (n m : Nat) :
    Padded number n [] m (splitAfter '\n' line) := by
  rw [Text.splitAfter_of_notMem hfeed]
  split
  · exact .nil n m
  · exact .inert (Token.scanLine_inert hline) (.nil n (m + 1))

/-- A last line that lacked its end is changed, but not its tokens, and lines without
tokens follow. -/
theorem changed {x y : List Char} (hx : '\n' ∉ x) (hscan : Token.scanLine y = Token.scanLine x)
    (h : ∀ n m, Padded id n [] m ys) (n : Nat) : Padded id n (splitAfter '\n' x) n (y :: ys) := by
  rw [Text.splitAfter_of_notMem hx]
  split
  · next hnil =>
    subst hnil
    exact .inert hscan (h n (n + 1))
  · exact .line rfl hscan (h (n + 1) (n + 1))

/-- Lines are put between lines that were put between others. -/
theorem trans {f g : Nat → Nat} {k : Nat} {zs : List (List Char)} (h : Padded f n xs m ys)
    (h' : Padded g m ys k zs) : Padded (g ∘ f) n xs k zs := by
  induction h' generalizing n xs with
  | nil m k =>
      cases h
      exact .nil _ _
  | inert hz h' ih => exact .inert hz (ih h)
  | line hnumber hscan h' ih =>
      cases h with
      | inert hy h => exact .inert (hscan.trans hy) (ih h)
      | line hnumber' hscan' h =>
          refine .line ?_ (hscan.trans hscan') (ih h)
          rw [Function.comp_apply, hnumber', hnumber]

end Padded

/-! ## remarks -/

/-- The new numbers when a line is put after the first `count` lines. -/
def moveAfter (count n : Nat) : Nat := if n ≤ count then n else n + 1

/-- A text and the same text with remarks: lines between its lines that are blank or hold
nothing but a comment, and comments at the end of its lines.  The function gives the new
numbers of the lines. -/
inductive Remarked : List Char → List Char → (Nat → Nat) → Prop where
  /-- Nothing is added. -/
  | none (text : List Char) : Remarked text text id
  /-- A line is put before the first, between two lines, or after the last. -/
  | insert {before line ending after : List Char} (hbefore : EndsLine before)
      (hline : Token.Inert line) (hfeed : '\n' ∉ line) (hending : Text.LineEnd ending) :
      Remarked (before ++ after) (before ++ (line ++ ending ++ after))
        (moveAfter (splitAfter '\n' before).length)
  /-- A line is put after the last, and lacks its end. -/
  | last {before line : List Char} (hbefore : EndsLine before) (hline : Token.Inert line)
      (hfeed : '\n' ∉ line) : Remarked before (before ++ line) id
  /-- A line is put after the last, which lacked its end. -/
  | close {text ending line : List Char} (hending : Text.LineEnd ending)
      (hline : Token.Inert line) (hfeed : '\n' ∉ line) : Remarked text (text ++ ending ++ line) id
  /-- A comment is put at the end of a line that does not end with a blank character. -/
  | comment {before line ending after : List Char} (hbefore : EndsLine before)
      (hfeed : '\n' ∉ line) (hlast : ∀ c ∈ line.getLast?, isBlank c = false) {remark : List Char}
      (hremark : '\n' ∉ remark) (hending : Text.LineEnd ending) :
      Remarked (before ++ (line ++ ending ++ after))
        (before ++ (line ++ ' ' :: '/' :: '/' :: remark ++ ending ++ after)) id
  /-- A comment is put at the end of the last line, which lacks its end. -/
  | commentLast {before line : List Char} (hbefore : EndsLine before) (hfeed : '\n' ∉ line)
      (hlast : ∀ c ∈ line.getLast?, isBlank c = false) {remark : List Char}
      (hremark : '\n' ∉ remark) :
      Remarked (before ++ line) (before ++ (line ++ ' ' :: '/' :: '/' :: remark)) id
  /-- Remarks are added to a text with remarks. -/
  | trans {first second third : List Char} {f g : Nat → Nat} (h : Remarked first second f)
      (h' : Remarked second third g) : Remarked first third (g ∘ f)

theorem notMem_append_comment {line remark : List Char} (hfeed : '\n' ∉ line)
    (hremark : '\n' ∉ remark) : '\n' ∉ line ++ ' ' :: '/' :: '/' :: remark := by
  simp [hfeed, hremark]

/-- A line is put after other lines. -/
theorem padded_insert {line ending : List Char} (hline : Token.Inert line)
    (hending : Text.LineEnd ending) (xs ys : List (List Char)) :
    Padded (moveAfter xs.length) 1 (xs ++ ys) 1 (xs ++ (line ++ ending) :: ys) := by
  have hscan : Token.scanLine (line ++ ending) = .ok [] := by
    rw [hending.scanLine_append, Token.scanLine_inert hline]
  refine .append xs ?_ (.inert hscan (.moved ?_))
  · intro i hi
    rw [moveAfter, if_pos (by omega)]
  · intro i hi
    rw [moveAfter, if_neg (by omega)]
    omega

/-- The lines of a text with remarks. -/
theorem Remarked.padded {text text' : List Char} {number : Nat → Nat}
    (h : Remarked text text' number) :
    Padded number 1 (splitAfter '\n' text) 1 (splitAfter '\n' text') := by
  induction h with
  | none text => exact .moved fun _ _ => rfl
  | @insert before line ending after hbefore hline hfeed hending =>
      rw [Text.splitAfter_append hbefore, Text.splitAfter_append hbefore,
        hending.splitAfter_append hfeed]
      exact padded_insert hline hending _ _
  | @last before line hbefore hline hfeed =>
      rw [Text.splitAfter_append hbefore, ← List.append_nil (splitAfter '\n' before),
        List.append_assoc, List.nil_append]
      exact .append _ (fun _ _ => rfl) (.last hline hfeed _ _)
  | @close text ending line hending hline hfeed =>
      -- A text that ends with a line gets a blank line.
      obtain ⟨before, x, rfl, hbefore, hx⟩ := Text.exists_endsLine_append text
      rw [List.append_assoc, List.append_assoc, Text.splitAfter_append hbefore,
        Text.splitAfter_append hbefore, ← List.append_assoc, hending.splitAfter_append hx]
      exact .append _ (fun _ _ => rfl)
        (.changed hx (hending.scanLine_append x) (Padded.last hline hfeed) _)
  | @comment before line ending after hbefore hfeed hlast remark hremark hending =>
      have hscan : Token.scanLine (line ++ ' ' :: '/' :: '/' :: remark ++ ending) =
          Token.scanLine (line ++ ending) := by
        rw [hending.scanLine_append, hending.scanLine_append, Token.scanLine_append_comment hlast]
      rw [Text.splitAfter_append hbefore, Text.splitAfter_append hbefore,
        hending.splitAfter_append hfeed,
        hending.splitAfter_append (notMem_append_comment hfeed hremark)]
      exact .append _ (fun _ _ => rfl) (.line rfl hscan (.moved fun _ _ => rfl))
  | @commentLast before line hbefore hfeed hlast remark hremark =>
      have hcomment : splitAfter '\n' (line ++ ' ' :: '/' :: '/' :: remark) =
          [line ++ ' ' :: '/' :: '/' :: remark] := by
        rw [Text.splitAfter_of_notMem (notMem_append_comment hfeed hremark), if_neg (by simp)]
      rw [Text.splitAfter_append hbefore, Text.splitAfter_append hbefore, hcomment]
      exact .append _ (fun _ _ => rfl)
        (.changed hfeed (Token.scanLine_append_comment hlast remark) .nil _)
  | trans h h' ih ih' => exact ih.trans ih'

/-- The lines of tokens of a text with remarks. -/
theorem Remarked.tokenize_eq {source source' : String} {number : Nat → Nat}
    (h : Remarked source.toList source'.toList number) :
    tokenize source' = (tokenize source).bimap ((Renaming.ofLine number).fault id)
      (List.map (Renaming.ofLine number).sourceLine) := by
  unfold tokenize
  rw [Text.lines_eq, Text.lines_eq]
  exact h.padded.tokenizeLines_eq

/-- **Blank lines and comments say nothing**: a text with remarks prints the same and
leaves the same records, or fails in the same way, with the new numbers of the lines. -/
theorem runSource_remarked {σ : Type} [Sink σ] {source source' : String} {number : Nat → Nat}
    (h : Remarked source.toList source'.toList number) (options : Options) (out : σ) :
    runSource options source' out = (runSource options source out).trimap
      (Renaming.ofLine number).error id (List.map (Renaming.ofLine number).record) :=
  (Renaming.ofLine number).runSource_eq h.tokenize_eq options out

/-- Remarks on a program that prints and then fails on its second line, which becomes the
fourth. -/
theorem runSource_remarked_failing :
    runSource {} "print 1\nprint y" ({} : Log) =
      .error (.eval ⟨.unknownVariable "y", 2⟩) ⟨["1\n"]⟩ ∧
    runSource {} "//a\r\nprint 1 //..\n \nprint y //" ({} : Log) =
      .error (.eval ⟨.unknownVariable "y", 4⟩) ⟨["1\n"]⟩ := by
  have hstart : Remarked "print 1\nprint y".toList "//a\r\nprint 1\nprint y".toList
      (moveAfter 0) :=
    @Remarked.insert [] ['/', '/', 'a'] ['\r', '\n'] "print 1\nprint y".toList nofun
      (@Token.Inert.comment [] nofun ['a']) (by decide) (.inr rfl)
  have hcomment : Remarked "//a\r\nprint 1\nprint y".toList
      "//a\r\nprint 1 //..\nprint y".toList id :=
    @Remarked.comment "//a\r\n".toList "print 1".toList ['\n'] "print y".toList
      (by simp [Text.EndsLine]) (by decide) (by simp [isBlank, Text.blankRanges]) ['.', '.']
      (by decide) (.inl rfl)
  have hblank : Remarked "//a\r\nprint 1 //..\nprint y".toList
      "//a\r\nprint 1 //..\n \nprint y".toList (moveAfter 2) :=
    @Remarked.insert "//a\r\nprint 1 //..\n".toList [' '] ['\n'] "print y".toList
      (by simp [Text.EndsLine]) (.blank (by simp)) (by decide) (.inl rfl)
  have hlast : Remarked "//a\r\nprint 1 //..\n \nprint y".toList
      "//a\r\nprint 1 //..\n \nprint y //".toList id :=
    @Remarked.commentLast "//a\r\nprint 1 //..\n \n".toList "print y".toList
      (by simp [Text.EndsLine]) (by decide) (by simp [isBlank, Text.blankRanges]) [] (by decide)
  have hfails : runSource {} "print 1\nprint y" ({} : Log) =
      .error (.eval ⟨.unknownVariable "y", 2⟩) ⟨["1\n"]⟩ := by cbv
  have hremarked := runSource_remarked (((hstart.trans hcomment).trans hblank).trans hlast) {}
    ({} : Log)
  rw [hfails] at hremarked
  exact ⟨hfails, hremarked⟩

end LineScript
