import LineScript.Token.Lexer
import Mathlib

/-!
# LineScript.Proofs.Token.Spelling

Tokens written as a line and read again.  Tokens are written one after another with
a single space between them, and a space on either side of a range operator may be
left out.  Setting range operators apart puts every such space back, so that cutting
the line at its spaces gives the spellings, and each of them is read as its token.

* `classify_spelling` — a spelling is read as its token;
* `isolateFrom_spelled` — the spaces that were left out come back;
* `tokenizeLine_spelled` — a line of spelled tokens has these tokens.
-/

namespace LineScript

namespace Token

/-! ## tokens with a spelling of their own -/

/-- Whether the characters are a letter or an underscore, and then letters, digits
and underscores. -/
def isName : List Char → Bool
  | [] => false
  | c :: cs => startsName c && cs.all inName

/-- The spellings that are not left to variables. -/
def reserved : List String :=
  ["true", "false"] ++ Keyword.all.map Keyword.spelling ++ Operator.all.map Operator.spelling

/-- Whether a token is told by its spelling: a character is neither the quotation mark
nor the space, and a word is a name that is not reserved. -/
def isSpellable : Token → Bool
  | literal (.char c) => c ≠ '\'' && c ≠ ' '
  | word name => isName name.toList && name ∉ reserved
  | _ => true

/-- Whether a token is a range operator. -/
def isRange : Token → Bool
  | operator (.binary op) => op.isRange
  | _ => false

/-- Tokens written one after another with a single space between them, which may be
left out next to a range operator, but not between `..` and `=`. -/
inductive Spelled : List Token → List Char → Prop where
  | nil : Spelled [] []
  | single (t : Token) : Spelled [t] t.spelling
  | spaced (t : Token) {u : Token} {ts : List Token} {cs : List Char} (h : Spelled (u :: ts) cs) :
      Spelled (t :: u :: ts) (t.spelling ++ ' ' :: cs)
  | glued (t : Token) {u : Token} {ts : List Token} {cs : List Char}
      (hrange : t.isRange = true ∨ u.isRange = true)
      (hequal : ¬(t = .operator (.binary .range) ∧ u = .operator (.binary .equal)))
      (h : Spelled (u :: ts) cs) : Spelled (t :: u :: ts) (t.spelling ++ cs)

/-! ## the characters of a spelling -/

/-- Whether a character is a visible one of ASCII, other than the dot. -/
def isPlain (c : Char) : Bool := 33 ≤ c.toNat && c.toNat ≤ 126 && c ≠ '.'

theorem isBlank_of_isPlain {c : Char} (h : isPlain c = true) : Text.isBlank c = false := by
  simp only [isPlain, Bool.and_eq_true, decide_eq_true_eq] at h
  rw [Text.isBlank, List.any_eq_false]
  intro (lo, hi) hmem
  simp only [Text.blankRanges, List.mem_cons, Prod.mk.injEq, List.not_mem_nil, or_false] at hmem
  simp only [Bool.and_eq_true, decide_eq_true_eq, not_and]
  omega

theorem isPlain_of_isAlphanum {c : Char} (h : c.isAlphanum = true) : isPlain c = true := by
  have hdot : c ≠ '.' := by rintro rfl; contradiction
  simp only [Char.isAlphanum, Char.isAlpha, Char.isUpper, Char.isLower, Char.isDigit,
    Bool.or_eq_true, Bool.and_eq_true, decide_eq_true_eq, UInt32.le_iff_toNat_le, Char.reduceVal,
    UInt32.reduceToNat] at h
  simp only [isPlain, Bool.and_eq_true, decide_eq_true_eq]
  refine ⟨?_, hdot⟩
  unfold Char.toNat
  omega

theorem isPlain_of_inName {c : Char} (h : inName c = true) : isPlain c = true := by
  simp only [inName, Bool.or_eq_true, decide_eq_true_eq] at h
  rcases h with h | rfl
  · exact isPlain_of_isAlphanum h
  · rfl

theorem inName_of_startsName {c : Char} (h : startsName c = true) : inName c = true := by
  simp only [startsName, inName, Char.isAlphanum, Bool.or_eq_true] at h ⊢
  tauto

/-- Integers are written with digits and a sign. -/
theorem isDigit_or_eq_of_mem_write {z : Int} {c : Char} (h : c ∈ Decimal.write z) :
    c.isDigit = true ∨ c = '-' := by
  have hdigits : ∀ n, c ∈ Nat.toDigits 10 n → c.isDigit = true :=
    fun n => Nat.isDigit_of_mem_toDigits (by decide) (by decide)
  cases z with
  | ofNat n => exact .inl (hdigits n h)
  | negSucc n =>
      rcases List.mem_cons.mp h with rfl | h
      · exact .inr rfl
      · exact .inl (hdigits (n + 1) h)

theorem all_isPlain_write (z : Int) : (Decimal.write z).all isPlain = true := by
  rw [List.all_eq_true]
  intro c hc
  rcases isDigit_or_eq_of_mem_write hc with hdigit | rfl
  · exact isPlain_of_isAlphanum (by simp [Char.isAlphanum, hdigit])
  · rfl

theorem write_ne_nil (z : Int) : Decimal.write z ≠ [] := by
  cases z with
  | ofNat n => exact Nat.toDigits_ne_nil
  | negSucc n => simp [Decimal.write]

theorem exists_cons_of_isName {cs : List Char} (h : isName cs = true) :
    ∃ c rest, cs = c :: rest ∧ startsName c = true := by
  cases cs with
  | nil => contradiction
  | cons c rest =>
      simp only [isName, Bool.and_eq_true] at h
      exact ⟨c, rest, rfl, h.1⟩

theorem inName_of_isName {cs : List Char} (h : isName cs = true) :
    ∀ c ∈ cs, inName c = true := by
  cases cs with
  | nil => contradiction
  | cons c rest =>
      simp only [isName, Bool.and_eq_true, List.all_eq_true] at h
      exact List.forall_mem_cons.mpr ⟨inName_of_startsName h.1, h.2⟩

/-- What the spelling of a token looks like: only characters and range operators may
hold dots and other characters that are not plain. -/
theorem spelling_cases {t : Token} (h : t.isSpellable = true) :
    (∃ c, t = .literal (.char c) ∧ c ≠ '\'' ∧ c ≠ ' ') ∨
      t = .operator (.binary .range) ∨ t = .operator (.binary .rangeInclusive) ∨
      (t.isRange = false ∧ t.spelling ≠ [] ∧ t.spelling.all isPlain = true) := by
  cases t with
  | literal value =>
      cases value with
      | int n => exact .inr (.inr (.inr ⟨rfl, write_ne_nil _, all_isPlain_write _⟩))
      | char c => exact .inl ⟨c, rfl, by simpa [isSpellable] using h⟩
      | bool b => cases b <;> exact .inr (.inr (.inr ⟨rfl, by simp [spelling], rfl⟩))
  | keyword k => cases k <;> exact .inr (.inr (.inr ⟨rfl, by simp [spelling, Keyword.spelling], rfl⟩))
  | operator op =>
      cases op with
      | binary op =>
          cases op with
          | range => exact .inr (.inl rfl)
          | rangeInclusive => exact .inr (.inr (.inl rfl))
          | _ =>
              exact .inr (.inr (.inr
                ⟨rfl, by simp [spelling, Operator.spelling, BinaryOp.spelling], rfl⟩))
      | _ => exact .inr (.inr (.inr ⟨rfl, by simp [spelling, Operator.spelling], rfl⟩))
  | word name =>
      simp only [isSpellable, Bool.and_eq_true] at h
      obtain ⟨c, rest, hname, -⟩ := exists_cons_of_isName h.1
      have hall : name.toList.all isPlain = true :=
        List.all_eq_true.mpr fun d hd => isPlain_of_inName (inName_of_isName h.1 d hd)
      exact .inr (.inr (.inr ⟨rfl, by simp [spelling, hname], hall⟩))

theorem spelling_ne_nil {t : Token} (h : t.isSpellable = true) : t.spelling ≠ [] := by
  rcases spelling_cases h with ⟨c, rfl, -, -⟩ | rfl | rfl | ⟨-, hne, -⟩
  · simp [spelling]
  · simp [spelling, Operator.spelling, BinaryOp.spelling]
  · simp [spelling, Operator.spelling, BinaryOp.spelling]
  · exact hne

theorem space_notMem_spelling {t : Token} (h : t.isSpellable = true) : ' ' ∉ t.spelling := by
  rcases spelling_cases h with ⟨c, rfl, -, hspace⟩ | rfl | rfl | ⟨-, -, hall⟩
  · simpa [spelling] using hspace.symm
  · simp [spelling, Operator.spelling, BinaryOp.spelling]
  · simp [spelling, Operator.spelling, BinaryOp.spelling]
  · intro hmem
    have hplain := List.all_eq_true.mp hall ' ' hmem
    contradiction

/-- A spelling neither starts nor ends with a blank character. -/
theorem isBlank_of_spelling {t : Token} (h : t.isSpellable = true) :
    (∀ c ∈ t.spelling.head?, Text.isBlank c = false) ∧
      ∀ c ∈ t.spelling.getLast?, Text.isBlank c = false := by
  rcases spelling_cases h with ⟨c, rfl, -, -⟩ | rfl | rfl | ⟨-, -, hall⟩
  · simp [spelling]; decide
  · simp [spelling, Operator.spelling, BinaryOp.spelling]; decide
  · simp [spelling, Operator.spelling, BinaryOp.spelling]; decide
  · rw [List.all_eq_true] at hall
    exact ⟨fun c hc => isBlank_of_isPlain (hall c (List.mem_of_head? hc)),
      fun c hc => isBlank_of_isPlain (hall c (List.mem_of_getLast? hc))⟩

/-! ## one spelling -/

/-- A name that is not reserved is no symbol. -/
theorem symbol?_of_notMem_reserved {name : String} (h : name ∉ reserved) : symbol? name = none := by
  simp only [reserved, List.mem_append, not_or] at h
  obtain ⟨⟨hbool, hkeyword⟩, hoperator⟩ := h
  have hb : boolOfSpelling? name = none := by
    simp only [List.mem_cons, List.not_mem_nil, or_false, not_or] at hbool
    rw [boolOfSpelling?, if_neg hbool.1, if_neg hbool.2]
  have hk : Keyword.ofSpelling? name = none := by
    rw [Option.eq_none_iff_forall_ne_some]
    intro k hk
    have hspelling := Keyword.ofSpelling?_eq_some_iff.mp hk
    exact hkeyword (List.mem_map.mpr ⟨k, k.mem_all, hspelling⟩)
  have ho : Operator.ofSpelling? name = none := by
    rw [Option.eq_none_iff_forall_ne_some]
    intro op hop
    have hspelling := Operator.ofSpelling?_eq_some_iff.mp hop
    exact hoperator (List.mem_map.mpr ⟨op, op.mem_all, hspelling⟩)
  rw [symbol?, hb, hk, ho]
  rfl

/-- What starts with neither a sign nor a digit is no numeral. -/
theorem read?_cons_eq_none {c : Char} (hplus : c ≠ '+') (hminus : c ≠ '-')
    (hdigit : c.isDigit = false) (rest : List Char) : Decimal.read? (c :: rest) = none := by
  have hunsigned : Decimal.unsigned (c :: rest) = c :: rest := by
    unfold Decimal.unsigned
    split <;> simp_all
  have hnumeral : Decimal.isNumeral (Decimal.unsigned (c :: rest)) = false := by
    rw [hunsigned]
    simp [Decimal.isNumeral, hdigit]
  rw [← Option.not_isSome_iff_eq_none, Decimal.read?_isSome_iff, hnumeral]
  exact Bool.false_ne_true

theorem isDigit_of_startsName {c : Char} (h : startsName c = true) : c.isDigit = false := by
  simp only [startsName, Char.isAlpha, Char.isUpper, Char.isLower, Bool.or_eq_true,
    Bool.and_eq_true, decide_eq_true_eq, UInt32.le_iff_toNat_le, Char.reduceVal,
    UInt32.reduceToNat] at h
  rcases h with h | rfl
  · rw [Char.isDigit, Bool.and_eq_false_iff, decide_eq_false_iff_not, decide_eq_false_iff_not]
    simp only [UInt32.le_iff_toNat_le, UInt32.reduceToNat, Char.reduceVal]
    omega
  · rfl

theorem name_eq_isName (cs : List Char) : Pattern.name cs = isName cs := by
  cases cs <;> simp [Pattern.name, Pattern.one, isName]

/-- A name that is not reserved is read as a word. -/
theorem classify_of_isName {name : String} (h : isName name.toList = true) (hname : name ∉ reserved) :
    classify name.toList = .ok (.word name) := by
  obtain ⟨c, rest, hcs, hstart⟩ := exists_cons_of_isName h
  have hplus : c ≠ '+' := by rintro rfl; contradiction
  have hminus : c ≠ '-' := by rintro rfl; contradiction
  have hquote : c ≠ '\'' := by rintro rfl; contradiction
  have hread : Decimal.read? name.toList = none := by
    rw [hcs, read?_cons_eq_none hplus hminus (isDigit_of_startsName hstart)]
  have hquoted : ¬Pattern.quoted name.toList = true := by
    simp [hcs, Pattern.quoted, Pattern.one, hquote]
  rw [classify_of_read?_eq_none (by simp [hcs]) hread, nonInteger?_eq, if_neg hquoted,
    String.ofList_toList, symbol?_of_notMem_reserved hname, name_eq_isName, if_pos h]
  rfl

theorem classify_quoted {c : Char} (h : c ≠ '\'') :
    classify ['\'', c, '\''] = .ok (.literal (.char c)) := by
  have hread := read?_cons_eq_none (c := '\'') (by decide) (by decide) rfl [c, '\'']
  have hquoted : Pattern.quoted ['\'', c, '\''] = true := by
    simp [Pattern.quoted, Pattern.one, Pattern.done, h]
  rw [classify_of_read?_eq_none (by simp) hread, nonInteger?_eq, if_pos hquoted]
  rfl

/-- A spelling is read as its token. -/
theorem classify_spelling {t : Token} (h : t.isSpellable = true) :
    classify t.spelling = .ok t := by
  cases t with
  | literal value =>
      cases value with
      | int n =>
          rw [spelling, classify_of_read? (Decimal.read?_write n.toInt), Number.ofInt?_toInt]
      | char c =>
          simp only [isSpellable, Bool.and_eq_true, decide_eq_true_eq] at h
          exact classify_quoted h.1
      | bool b => cases b <;> rfl
  | keyword k => cases k <;> rfl
  | operator op =>
      cases op with
      | binary op => cases op <;> rfl
      | _ => rfl
  | word name =>
      simp only [isSpellable, Bool.and_eq_true, decide_eq_true_eq] at h
      exact classify_of_isName h.1 h.2

theorem startsComment_of_notMem {cs : List Char} (h : '/' ∉ cs) : startsComment cs = false := by
  cases cs with
  | nil => rfl
  | cons c cs =>
      rw [List.mem_cons, not_or] at h
      simp [startsComment, List.isPrefixOf, h.1]

/-- No spelling starts a comment. -/
theorem startsComment_spelling {t : Token} (h : t.isSpellable = true) :
    startsComment t.spelling = false := by
  cases t with
  | literal value =>
      cases value with
      | int n =>
          refine startsComment_of_notMem fun hmem => ?_
          rcases isDigit_or_eq_of_mem_write hmem with h | h <;> contradiction
      | char c => rfl
      | bool b => cases b <;> rfl
  | keyword k => cases k <;> rfl
  | operator op =>
      cases op with
      | binary op => cases op <;> rfl
      | _ => rfl
  | word name =>
      simp only [isSpellable, Bool.and_eq_true] at h
      refine startsComment_of_notMem fun hmem => ?_
      have hname := inName_of_isName h.1 '/' hmem
      contradiction

theorem classifyPieces_map_spelling {ts : List Token} (h : ∀ t ∈ ts, t.isSpellable = true) :
    classifyPieces (ts.map spelling) = .ok ts := by
  induction ts with
  | nil => rfl
  | cons t ts ih =>
      obtain ⟨ht, hts⟩ := List.forall_mem_cons.mp h
      rw [List.map_cons, classifyPieces, startsComment_spelling ht, classify_spelling ht, ih hts]
      rfl

/-! ## setting range operators apart -/

/-- A character other than the dot is copied. -/
theorem isolateFrom_cons {c : Char} (h : c ≠ '.') (before : Option Char) (rest : List Char) :
    isolateFrom before (c :: rest) = c :: isolateFrom (some c) rest := by
  rw [isolateFrom]
  · rintro _ rfl
    contradiction
  · rintro _ rfl
    contradiction

theorem isolateFrom_append_cons {cs : List Char} (hcs : '.' ∉ cs) {c : Char} (hc : c ≠ '.')
    (before : Option Char) (rest : List Char) :
    isolateFrom before (cs ++ c :: rest) = cs ++ c :: isolateFrom (some c) rest := by
  induction cs generalizing before with
  | nil => exact isolateFrom_cons hc before rest
  | cons d cs ih =>
      rw [List.mem_cons, not_or] at hcs
      rw [List.cons_append, isolateFrom_cons (Ne.symm hcs.1), ih hcs.2, List.cons_append]

theorem isolateFrom_quoted (c : Char) (before : Option Char) (rest : List Char) :
    isolateFrom before ('\'' :: c :: '\'' :: rest) =
      '\'' :: c :: '\'' :: isolateFrom (some '\'') rest := by
  have hc : isolateFrom (some '\'') (c :: '\'' :: rest) = c :: isolateFrom (some c) ('\'' :: rest) := by
    rw [isolateFrom] <;> simp
  rw [isolateFrom_cons (by decide), hc, isolateFrom_cons (by decide)]

/-- The spelling of a token that is no range operator is copied, and its last
character is no space. -/
theorem isolateFrom_spelling {t : Token} (h : t.isSpellable = true) (hrange : t.isRange = false)
    (before : Option Char) :
    ∃ c, c ≠ ' ' ∧ ∀ rest, isolateFrom before (t.spelling ++ rest) =
      t.spelling ++ isolateFrom (some c) rest := by
  rcases spelling_cases h with ⟨c, rfl, -, -⟩ | rfl | rfl | ⟨-, hne, hall⟩
  · exact ⟨'\'', by decide, isolateFrom_quoted c before⟩
  · contradiction
  · contradiction
  · rw [List.all_eq_true] at hall
    obtain ⟨cs, c, hspelling⟩ : ∃ cs c, t.spelling = cs ++ [c] :=
      ⟨_, _, (List.dropLast_append_getLast hne).symm⟩
    have hc : isPlain c = true := hall c (by simp [hspelling])
    have hcs : '.' ∉ cs := by
      intro hmem
      have hplain := hall '.' (by simp [hspelling, hmem])
      contradiction
    refine ⟨c, by rintro rfl; contradiction, fun rest => ?_⟩
    rw [hspelling, List.append_assoc, List.append_assoc]
    exact isolateFrom_append_cons hcs (by rintro rfl; contradiction) before rest

/-- A range operator gets its spaces back. -/
theorem isolateFrom_range {t : Token} (hrange : t.isRange = true) (before : Option Char)
    {rest : List Char} (hrest : t = .operator (.binary .range) → rest.head? ≠ some '=') :
    isolateFrom before (t.spelling ++ rest) =
      gapAfter before ++ (t.spelling ++ (gapBefore rest ++ isolateFrom none rest)) := by
  cases t with
  | operator op =>
      cases op with
      | binary op =>
          cases op with
          | range =>
              show isolateFrom before ('.' :: '.' :: rest) = _
              rw [isolateFrom]
              · rfl
              · rintro more rfl
                exact hrest rfl rfl
          | rangeInclusive => rfl
          | _ => contradiction
      | _ => contradiction
  | _ => contradiction

/-- The first character of a line is that of its first token. -/
theorem Spelled.head?_eq {t : Token} {ts : List Token} {cs : List Char}
    (h : Spelled (t :: ts) cs) (ht : t.isSpellable = true) : cs.head? = t.spelling.head? := by
  cases h with
  | single => rfl
  | spaced => rw [List.head?_append_of_ne_nil _ (spelling_ne_nil ht)]
  | glued => rw [List.head?_append_of_ne_nil _ (spelling_ne_nil ht)]

/-- Only the comparison for equality starts with its sign. -/
theorem eq_equal_of_head?_spelling {t : Token} (ht : t.isSpellable = true)
    (h : t.spelling.head? = some '=') : t = .operator (.binary .equal) := by
  have hmem : '=' ∈ t.spelling := List.mem_of_head? h
  cases t with
  | literal value =>
      cases value with
      | int n => rcases isDigit_or_eq_of_mem_write hmem with h | h <;> contradiction
      | char c => simp [spelling] at h
      | bool b => cases b <;> contradiction
  | keyword k => cases k <;> contradiction
  | operator op =>
      cases op with
      | binary op => cases op <;> first | rfl | contradiction
      | _ => contradiction
  | word name =>
      simp only [isSpellable, Bool.and_eq_true] at ht
      have hname := inName_of_isName ht.1 '=' hmem
      contradiction

theorem gapAfter_head?_spelling {t : Token} (ht : t.isSpellable = true) :
    gapAfter t.spelling.head? = [' '] := by
  cases hspelling : t.spelling with
  | nil => exact absurd hspelling (spelling_ne_nil ht)
  | cons c cs =>
      have hc : c ≠ ' ' := by
        rintro rfl
        exact space_notMem_spelling ht (by simp [hspelling])
      simp [gapAfter, hc]

/-- The space to put before the first of the tokens. -/
def gapBeforeFirst (before : Option Char) (ts : List Token) : List Char :=
  if ts.head?.any isRange then gapAfter before else []

@[simp] theorem gapBeforeFirst_none (ts : List Token) : gapBeforeFirst none ts = [] := by
  simp [gapBeforeFirst, gapAfter]

@[simp] theorem gapBeforeFirst_space (ts : List Token) : gapBeforeFirst (some ' ') ts = [] := by
  simp [gapBeforeFirst, gapAfter]

theorem gapBeforeFirst_cons (before : Option Char) (t : Token) (ts : List Token) :
    gapBeforeFirst before (t :: ts) = if t.isRange then gapAfter before else [] := rfl

/-- **The spaces that were left out come back**: with its range operators set apart, a
line is the spellings with a single space between them. -/
theorem isolateFrom_spelled {ts : List Token} {cs : List Char} (h : Spelled ts cs)
    (hspell : ∀ t ∈ ts, t.isSpellable = true) (before : Option Char) :
    isolateFrom before cs = gapBeforeFirst before ts ++ [' '].intercalate (ts.map spelling) := by
  induction h generalizing before with
  | nil => rfl
  | single t =>
      rw [← List.append_nil t.spelling]
      cases hrange : t.isRange with
      | true =>
          rw [isolateFrom_range hrange before (by simp)]
          simp [gapBeforeFirst_cons, hrange, gapBefore, gapAfter, isolateFrom]
      | false =>
          obtain ⟨c, -, hcopy⟩ := isolateFrom_spelling (hspell t (by simp)) hrange before
          rw [hcopy]
          simp [gapBeforeFirst_cons, hrange, isolateFrom]
  | @spaced t u ts cs h ih =>
      obtain ⟨ht, hts⟩ := List.forall_mem_cons.mp hspell
      have hrest : ∀ b, isolateFrom b (' ' :: cs) =
          ' ' :: [' '].intercalate ((u :: ts).map spelling) := by
        intro b
        rw [isolateFrom_cons (by decide), ih hts, gapBeforeFirst_space, List.nil_append]
      cases hrange : t.isRange with
      | true =>
          rw [isolateFrom_range hrange before (by simp), hrest]
          simp [gapBeforeFirst_cons, hrange, gapBefore, gapAfter, List.intercalate_cons_cons]
      | false =>
          obtain ⟨c, -, hcopy⟩ := isolateFrom_spelling ht hrange before
          rw [hcopy, hrest]
          simp [gapBeforeFirst_cons, hrange, List.intercalate_cons_cons]
  | @glued t u ts cs hglue hequal h ih =>
      obtain ⟨ht, hts⟩ := List.forall_mem_cons.mp hspell
      have hu := hts u List.mem_cons_self
      have hhead := h.head?_eq hu
      cases hrange : t.isRange with
      | true =>
          have hrest : t = .operator (.binary .range) → cs.head? ≠ some '=' := by
            intro ht' hcs
            rw [hhead] at hcs
            exact hequal ⟨ht', eq_equal_of_head?_spelling hu hcs⟩
          have hgap : gapBefore cs = [' '] := by
            rw [gapBefore, hhead]
            exact gapAfter_head?_spelling hu
          rw [isolateFrom_range hrange before hrest, hgap, ih hts]
          simp [gapBeforeFirst_cons before, hrange, List.intercalate_cons_cons]
      | false =>
          have hu' : u.isRange = true := by simpa [hrange] using hglue
          obtain ⟨c, hc, hcopy⟩ := isolateFrom_spelling ht hrange before
          rw [hcopy, ih hts]
          simp [gapBeforeFirst_cons, hrange, hu', gapAfter, hc, List.intercalate_cons_cons]

/-! ## a whole line -/

theorem Spelled.ne_nil {t : Token} {ts : List Token} {cs : List Char} (h : Spelled (t :: ts) cs)
    (ht : t.isSpellable = true) : cs ≠ [] := by
  rintro rfl
  have hhead := h.head?_eq ht
  exact spelling_ne_nil ht (List.head?_eq_none_iff.mp hhead.symm)

theorem Spelled.isBlank_getLast? {ts : List Token} {cs : List Char} (h : Spelled ts cs)
    (hspell : ∀ t ∈ ts, t.isSpellable = true) : ∀ c ∈ cs.getLast?, Text.isBlank c = false := by
  induction h with
  | nil => simp
  | single t => exact (isBlank_of_spelling (hspell t (by simp))).2
  | @spaced t u ts cs h ih =>
      obtain ⟨-, hts⟩ := List.forall_mem_cons.mp hspell
      have hne := h.ne_nil (hts u List.mem_cons_self)
      rw [List.getLast?_append_cons, List.getLast?_cons_of_ne_nil hne]
      exact ih hts
  | @glued t u ts cs _ _ h ih =>
      obtain ⟨-, hts⟩ := List.forall_mem_cons.mp hspell
      have hne := h.ne_nil (hts u List.mem_cons_self)
      rw [List.getLast?_append_of_ne_nil _ hne]
      exact ih hts

/-- Blank characters around a line of spelled tokens are dropped, and no others. -/
theorem Spelled.trim_eq {ts : List Token} {cs lead trail : List Char} (h : Spelled ts cs)
    (hspell : ∀ t ∈ ts, t.isSpellable = true) (hlead : ∀ c ∈ lead, Text.isBlank c = true)
    (htrail : ∀ c ∈ trail, Text.isBlank c = true) : Text.trim (lead ++ cs ++ trail) = cs := by
  rw [Text.trim_append hlead htrail]
  cases ts with
  | nil => cases h; rfl
  | cons t ts =>
      have ht := hspell t List.mem_cons_self
      refine Text.trim_eq_self ?_ (h.isBlank_getLast? hspell)
      rw [h.head?_eq ht]
      exact (isBlank_of_spelling ht).1

theorem scanLine_spelled {ts : List Token} {cs text : List Char} (h : Spelled ts cs)
    (hspell : ∀ t ∈ ts, t.isSpellable = true) (htrim : Text.trim text = cs) :
    scanLine text = .ok ts := by
  cases ts with
  | nil =>
      cases h
      rw [scanLine, htrim]
  | cons t ts =>
      have hne := h.ne_nil (hspell t List.mem_cons_self)
      have hpieces : (isolateRanges cs).splitOn ' ' = (t :: ts).map spelling := by
        rw [isolateRanges, isolateFrom_spelled h hspell, gapBeforeFirst_none, List.nil_append]
        refine List.splitOn_intercalate ' ' ?_ (by simp)
        intro piece hpiece
        obtain ⟨u, hu, rfl⟩ := List.mem_map.mp hpiece
        exact space_notMem_spelling (hspell u hu)
      unfold scanLine
      rw [htrim]
      split
      · contradiction
      · rw [hpieces, classifyPieces_map_spelling hspell]

end Token

/-- **Tokenizing undoes spelling**: a line of spelled tokens, with a single space between
them that may be missing next to a range operator, and with blank characters around it,
has exactly these tokens. -/
theorem tokenizeLine_spelled {tokens : List Token} {cs lead trail : List Char}
    (h : Token.Spelled tokens cs) (hspell : ∀ t ∈ tokens, t.isSpellable = true)
    (hlead : ∀ c ∈ lead, Text.isBlank c = true) (htrail : ∀ c ∈ trail, Text.isBlank c = true)
    (number : Nat) :
    tokenizeLine (String.ofList (lead ++ cs ++ trail)) number = .ok tokens := by
  rw [tokenizeLine, String.toList_ofList,
    Token.scanLine_spelled h hspell (h.trim_eq hspell hlead htrail)]
  rfl

/-- Ranges that touch each other, a quoted dot and a number with a sign, after a tab. -/
theorem tokenizeLine_spelled_ranges :
    tokenizeLine "\tfor '.'....=-7.. = /  " 3 =
      .ok [.keyword .forEach, .literal (.char '.'), .operator (.binary .range),
        .operator (.binary .rangeInclusive), .literal (.int (-7)), .operator (.binary .range),
        .operator (.binary .equal), .operator (.binary .div)] := by
  have hspelled : Token.Spelled _ _ :=
    .spaced (.keyword .forEach) <| .glued (.literal (.char '.')) (.inr rfl) (by decide) <|
      .glued (.operator (.binary .range)) (.inl rfl) (by decide) <|
      .glued (.operator (.binary .rangeInclusive)) (.inl rfl) (by decide) <|
      .glued (.literal (.int (-7))) (.inr rfl) (by decide) <|
      .spaced (.operator (.binary .range)) <| .spaced (.operator (.binary .equal)) <|
      .single (.operator (.binary .div))
  have hlead : ∀ c ∈ ['\t'], Text.isBlank c = true := by simp [Text.isBlank, Text.blankRanges]
  have htrail : ∀ c ∈ [' ', ' '], Text.isBlank c = true := by simp
  exact tokenizeLine_spelled hspelled (by decide) hlead htrail 3

end LineScript
