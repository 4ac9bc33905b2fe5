import LineScript.Proofs.Stateful
import LineScript.Proofs.Token.Comment

/-!
# LineScript.Proofs.Token.Isolation

Setting range operators apart does that and nothing else.  It works on each piece
between two spaces by itself, so that what is said of a piece without spaces is carried
over to a line by putting pieces together (`piecewise`).

* `Token.apart_of_mem_isolateRanges` — no operator touches anything afterwards;
* `Token.count_nil_isolateRanges` — no empty piece is made or lost;
* `Token.isolateRanges_of_apart` — a line whose operators stand apart is not changed;
* `Token.spaces_of_emptyToken` — so an empty token has two spaces around it.
-/

namespace LineScript

namespace Text

variable {cs : List Char}

/-- A trimmed text starts with no blank character. -/
theorem isBlank_head?_trim : ∀ c ∈ (trim cs).head?, isBlank c = false := by
  intro c hc
  exact head?_dropWhile_eq_false c (head?_mem_of_isPrefix (dropRightWhile_isPrefix _ _) c hc)

/-- A trimmed text ends with no blank character. -/
theorem isBlank_getLast?_trim : ∀ c ∈ (trim cs).getLast?, isBlank c = false := by
  intro c hc
  rw [trim, dropRightWhile, List.getLast?_reverse] at hc
  exact head?_dropWhile_eq_false c hc

end Text

namespace Token

open Text (isBlank trim)

/-! ## neighbours -/

/-- Two characters stand side by side in a text and one more if they do in the text or
where it ends. -/
theorem pair_infix_concat {a b c : Char} {cs : List Char} :
    [a, b] <:+: cs ++ [c] ↔ [a, b] <:+: cs ∨ (cs.getLast? = some a ∧ b = c) := by
  rw [List.infix_concat_iff, List.suffix_concat_iff, or_comm]
  refine or_congr_right ?_
  constructor
  · rintro (h | ⟨t, heq, hsuffix⟩)
    · contradiction
    · have happend : [a] ++ [b] = t ++ [c] := heq
      obtain ⟨rfl, rfl⟩ : [a] = t ∧ b = c := by simpa using List.append_inj' happend rfl
      obtain ⟨before, rfl⟩ := hsuffix
      simp
  · rintro ⟨hlast, rfl⟩
    obtain ⟨before, rfl⟩ := List.getLast?_eq_some_iff.mp hlast
    exact .inr ⟨[a], rfl, before, rfl⟩

theorem pair_infix_cons {a b c : Char} {cs : List Char} :
    [a, b] <:+: c :: cs ↔ (a = c ∧ cs.head? = some b) ∨ [a, b] <:+: cs := by
  rw [List.infix_cons_iff, List.cons_prefix_cons]
  cases cs with
  | nil => simp
  | cons d cs => simp [eq_comm]

/-- A text that neither starts nor ends with `a` gets no `a` next to another one when it is
put between two. -/
theorem pair_infix_of_between {a : Char} {cs : List Char} (hne : cs ≠ [])
    (hfirst : cs.head? ≠ some a) (hlast : cs.getLast? ≠ some a)
    (h : [a, a] <:+: a :: cs ++ [a]) : [a, a] <:+: cs := by
  rw [pair_infix_concat, pair_infix_cons, List.getLast?_cons_of_ne_nil hne] at h
  rcases h with (⟨-, h⟩ | h) | ⟨h, -⟩
  · exact absurd h hfirst
  · exact h
  · exact absurd h hlast

/-! ## pieces -/

theorem splitOn_of_notMem {cs : List Char} (h : ' ' ∉ cs) : cs.splitOn ' ' = [cs] := by
  induction cs with
  | nil => rfl
  | cons c cs ih =>
      rw [List.mem_cons, not_or] at h
      rw [splitOn_cons_of_ne (Ne.symm h.1), ih h.2]
      rfl

/-- What holds of pieces without spaces, and of two texts with a space between them if
it holds of both, holds of every text. -/
@[elab_as_elim]
theorem piecewise {P : List Char → Prop} (piece : ∀ cs, ' ' ∉ cs → P cs)
    (append : ∀ xs ys, P xs → P ys → P (xs ++ ' ' :: ys)) (cs : List Char) : P cs := by
  by_cases hspace : ' ' ∈ cs
  · obtain ⟨xs, ys, rfl⟩ := List.append_of_mem hspace
    exact append xs ys (piecewise piece append xs) (piecewise piece append ys)
  · exact piece cs hspace
termination_by cs.length
decreasing_by all_goals (subst_vars; simp; try omega)

/-- There is an empty piece only where two spaces meet, if each end of the text is
taken for one. -/
theorem spaces_of_nil_mem_splitOn {cs : List Char} (h : [] ∈ cs.splitOn ' ') :
    [' ', ' '] <:+: ' ' :: cs ++ [' '] := by
  induction cs using piecewise with
  | piece cs hcs =>
      obtain rfl : [] = cs := by simpa [splitOn_of_notMem hcs] using h
      exact List.infix_refl _
  | append xs ys ihx ihy =>
      rw [splitOn_append_space, List.mem_append] at h
      rcases h with h | h
      · have hfirst : ' ' :: xs ++ [' '] <+: ' ' :: (xs ++ ' ' :: ys) ++ [' '] :=
          ⟨ys ++ [' '], by simp⟩
        exact (ihx h).trans hfirst.isInfix
      · have hlast : ' ' :: ys ++ [' '] <:+ ' ' :: (xs ++ ' ' :: ys) ++ [' '] :=
          ⟨' ' :: xs, by simp⟩
        exact (ihy h).trans hlast.isInfix

/-! ## range operators that stand apart -/

/-- A piece whose range operators touch nothing: it is one, or it holds none. -/
def Apart (piece : List Char) : Prop :=
  ['.', '.'] <:+: piece → piece = ['.', '.'] ∨ piece = ['.', '.', '=']

theorem gapAfter_eq {before : Option Char} (h : before ≠ some ' ') :
    gapAfter before = if before.isSome then [' '] else [] := by
  cases before with
  | none => rfl
  | some c => simpa [gapAfter] using h

/-- The pieces around a range operator: the text before it, the operator, and the pieces
of the text after it. -/
theorem mem_splitOn_operator {held op rest piece : List Char} (hheld : ' ' ∉ held)
    (hop : ' ' ∉ op) (hrest : ' ' ∉ rest)
    (h : piece ∈ (held ++ (gapAfter held.getLast? ++
      (op ++ (gapBefore rest ++ isolateFrom none rest)))).splitOn ' ') :
    (piece = held ∧ held ≠ []) ∨ piece = op ∨
      (rest ≠ [] ∧ piece ∈ (isolateFrom none rest).splitOn ' ') := by
  have hbefore : held.getLast? ≠ some ' ' := fun hlast => hheld (List.mem_of_getLast? hlast)
  have hafter : rest.head? ≠ some ' ' := fun hhead => hrest (List.mem_of_head? hhead)
  have hright : ∀ piece ∈ (op ++ (gapBefore rest ++ isolateFrom none rest)).splitOn ' ',
      piece = op ∨ (rest ≠ [] ∧ piece ∈ (isolateFrom none rest).splitOn ' ') := by
    rw [gapBefore, gapAfter_eq hafter]
    cases rest with
    | nil => simp [isolateFrom, splitOn_of_notMem hop]
    | cons c rest => simp [splitOn_append_space, splitOn_of_notMem hop]
  by_cases hnil : held = []
  · subst hnil
    exact .inr (hright piece h)
  · have hgap : gapAfter held.getLast? = [' '] := by simp [gapAfter_eq hbefore, hnil]
    rw [hgap, List.singleton_append, splitOn_append_space, splitOn_of_notMem hheld,
      List.singleton_append, List.mem_cons] at h
    rcases h with rfl | h
    · exact .inl ⟨rfl, hnil⟩
    · exact .inr (hright piece h)

/-- The text before an operator, as long as it holds none, the operator and the pieces after
it all stand apart. -/
theorem apart_of_mem_splitOn_operator {held more op rest : List Char} (hheld : ' ' ∉ held)
    (hdots : ¬['.', '.'] <:+: held ++ more) (hop : op = ['.', '.'] ∨ op = ['.', '.', '='])
    (hspace : ' ' ∉ rest) (hrest : ∀ piece ∈ (isolateFrom none rest).splitOn ' ',
      Apart piece ∧ (piece = [] → rest = [])) :
    ∀ piece ∈ (held ++ (gapAfter held.getLast? ++
      (op ++ (gapBefore rest ++ isolateFrom none rest)))).splitOn ' ',
      Apart piece ∧ piece ≠ [] := by
  intro piece hpiece
  have hplain : ¬['.', '.'] <:+: held :=
    fun h => hdots (h.trans (List.prefix_append held more).isInfix)
  have hopSpace : ' ' ∉ op := by rcases hop with rfl | rfl <;> decide
  rcases mem_splitOn_operator hheld hopSpace hspace hpiece with ⟨rfl, hne⟩ | rfl | ⟨hne, hpiece⟩
  · exact ⟨fun h => absurd h hplain, hne⟩
  · exact ⟨fun _ => hop, by rcases hop with rfl | rfl <;> decide⟩
  · obtain ⟨hapart, hnil⟩ := hrest piece hpiece
    exact ⟨hapart, fun h => hne (hnil h)⟩

/-- A text of one character holds no range operator. -/
theorem not_dots_infix_take (cs : List Char) : ¬['.', '.'] <:+: cs.take 1 := by
  intro h
  have hlength := h.length_le
  simp at hlength

/-- The pieces of a text without spaces, of which `held` is what was copied since the last
operator.  As long as `held` and the next character hold no operator, no piece that starts
with `held` does. -/
theorem apart_of_mem_splitOn (held : List Char) {cs : List Char} (hheld : ' ' ∉ held)
    (hcs : ' ' ∉ cs) (hdots : ¬['.', '.'] <:+: held ++ cs.take 1) :
    ∀ piece ∈ (held ++ isolateFrom held.getLast? cs).splitOn ' ',
      Apart piece ∧ (piece = [] → held ++ cs = []) := by
  -- What is copied is held back character by character, and an operator starts anew with
  -- nothing held back.
  generalize hbefore : held.getLast? = before
  fun_induction isolateFrom before cs generalizing held with
  | case1 before rest ih =>
      have hspace : ' ' ∉ rest := by simpa using hcs
      have hrest := ih [] (by simp) hspace (not_dots_infix_take rest) rfl
      have hpieces := apart_of_mem_splitOn_operator hheld hdots (.inr rfl) hspace hrest
      subst hbefore
      exact fun piece hpiece => (hpieces piece hpiece).imp_right fun hne h => absurd h hne
  | case2 before rest hne ih =>
      have hspace : ' ' ∉ rest := by simpa using hcs
      have hrest := ih [] (by simp) hspace (not_dots_infix_take rest) rfl
      have hpieces := apart_of_mem_splitOn_operator hheld hdots (.inl rfl) hspace hrest
      subst hbefore
      exact fun piece hpiece => (hpieces piece hpiece).imp_right fun hne h => absurd h hne
  | case3 before c rest hne hne' ih =>
      rw [List.mem_cons, not_or] at hcs
      -- A second dot after `c` would have been met as an operator.
      have hnext : ¬['.', '.'] <:+: held ++ [c] ++ rest.take 1 := by
        cases rest with
        | nil => simpa using hdots
        | cons d rest =>
            rw [List.take_succ_cons, List.take_zero, pair_infix_concat]
            rintro (h | ⟨hlast, rfl⟩)
            · exact hdots h
            · obtain rfl : c = '.' := by simpa using hlast
              exact hne' rest rfl rfl
      have hstep := ih (held ++ [c]) (by simp [hheld, hcs.1]) hcs.2 hnext (by simp)
      simpa using hstep
  | case4 before =>
      intro piece hpiece
      rw [List.append_nil, splitOn_of_notMem hheld, List.mem_singleton] at hpiece
      subst hpiece
      rw [List.take_nil, List.append_nil] at hdots
      exact ⟨fun h => absurd h hdots, by simp⟩

/-- The pieces of a text without spaces stand apart, and none is empty if the text is not. -/
theorem apart_of_notMem {cs : List Char} (h : ' ' ∉ cs) :
    ∀ piece ∈ (isolateRanges cs).splitOn ' ', Apart piece ∧ (piece = [] → cs = []) :=
  apart_of_mem_splitOn [] (by simp) h (not_dots_infix_take cs)

/-! ## whole lines -/

theorem isolateFrom_some_space (cs : List Char) :
    isolateFrom (some ' ') cs = isolateFrom none cs := by
  unfold isolateFrom
  rfl

/-- Setting ranges apart works on each side of a space by itself. -/
theorem isolateRanges_append_space (xs ys : List Char) :
    isolateRanges (xs ++ ' ' :: ys) = isolateRanges xs ++ ' ' :: isolateRanges ys := by
  rw [isolateRanges, isolateFrom_append_space, isolateFrom_some_space]
  rfl

/-- Afterwards no range operator touches anything. -/
theorem apart_of_mem_isolateRanges (cs : List Char) :
    ∀ piece ∈ (isolateRanges cs).splitOn ' ', Apart piece := by
  induction cs using piecewise with
  | piece cs hcs =>
      intro piece hpiece
      exact (apart_of_notMem hcs piece hpiece).1
  | append xs ys ihx ihy =>
      rw [isolateRanges_append_space, splitOn_append_space, List.forall_mem_append]
      exact ⟨ihx, ihy⟩

/-- There are as many empty pieces as before. -/
theorem count_nil_isolateRanges (cs : List Char) :
    ((isolateRanges cs).splitOn ' ').count [] = (cs.splitOn ' ').count [] := by
  induction cs using piecewise with
  | piece cs hcs =>
      by_cases hnil : cs = []
      · subst hnil
        rfl
      · have hpieces : [] ∉ (isolateRanges cs).splitOn ' ' :=
          fun hmem => hnil ((apart_of_notMem hcs [] hmem).2 rfl)
        rw [splitOn_of_notMem hcs, List.count_eq_zero_of_not_mem hpieces, List.count_singleton]
        simp [hnil]
  | append xs ys ihx ihy =>
      rw [isolateRanges_append_space, splitOn_append_space, splitOn_append_space, List.count_append,
        List.count_append, ihx, ihy]

/-- A text without range operators is copied. -/
theorem isolateFrom_of_not_dots (before : Option Char) {cs : List Char}
    (h : ¬['.', '.'] <:+: cs) : isolateFrom before cs = cs := by
  fun_induction isolateFrom before cs with
  | case1 before rest ih => exact absurd ⟨[], '=' :: rest, rfl⟩ h
  | case2 before rest hne ih => exact absurd ⟨[], rest, rfl⟩ h
  | case3 before c rest hne hne' ih =>
      rw [ih fun hrest => h (hrest.trans (List.suffix_cons c rest).isInfix)]
  | case4 before => rfl

/-- A line whose range operators stand apart is copied. -/
theorem isolateRanges_of_apart {cs : List Char} (h : ∀ piece ∈ cs.splitOn ' ', Apart piece) :
    isolateRanges cs = cs := by
  induction cs using piecewise with
  | piece cs hcs =>
      have hapart : Apart cs := by simpa [splitOn_of_notMem hcs] using h
      by_cases hdots : ['.', '.'] <:+: cs
      · rcases hapart hdots with rfl | rfl <;> rfl
      · exact isolateFrom_of_not_dots none hdots
  | append xs ys ihx ihy =>
      rw [splitOn_append_space, List.forall_mem_append] at h
      rw [isolateRanges_append_space, ihx h.1, ihy h.2]

/-! ## empty tokens -/

theorem eq_nil_of_classify {piece : List Char} (h : classify piece = .error .emptyToken) :
    piece = [] := by
  by_contra hne
  cases hread : Decimal.read? piece with
  | some z =>
      rw [classify_of_read? hread] at h
      split at h <;> simp at h
  | none =>
      rw [classify_of_read?_eq_none hne hread] at h
      contradiction

theorem nil_mem_of_classifyPieces {pieces : List (List Char)}
    (h : classifyPieces pieces = .error .emptyToken) : [] ∈ pieces := by
  induction pieces with
  | nil => contradiction
  | cons piece pieces ih =>
      unfold classifyPieces at h
      split at h
      · contradiction
      · rcases Except.bind_eq_error_iff.mp h with h | ⟨token, -, h⟩
        · exact List.mem_cons.mpr (.inl (eq_nil_of_classify h).symm)
        · rcases Except.bind_eq_error_iff.mp h with h | ⟨tokens, -, h⟩
          · exact List.mem_cons_of_mem piece (ih h)
          · contradiction

/-- A line is trimmed, so an empty token stands between two spaces inside it. -/
theorem spaces_of_emptyToken {text : String} {number : Nat} {fault : Fault LexCause}
    (h : tokenizeLine text number = .error fault) (hcause : fault.cause = .emptyToken) :
    [' ', ' '] <:+: trim text.toList := by
  obtain ⟨cause, hscan, rfl⟩ := Except.mapError_eq_error_iff.mp h
  obtain rfl : cause = .emptyToken := hcause
  have hne : trim text.toList ≠ [] := by
    intro hnil
    rw [scanLine, hnil] at hscan
    contradiction
  rw [scanLine_of_trim_ne_nil hne] at hscan
  have hempty := nil_mem_of_classifyPieces hscan
  rw [← List.count_pos_iff, count_nil_isolateRanges, List.count_pos_iff] at hempty
  refine pair_infix_of_between hne ?_ ?_ (spaces_of_nil_mem_splitOn hempty)
  · intro hfirst
    have hblank := Text.isBlank_head?_trim ' ' hfirst
    simp at hblank
  · intro hlast
    have hblank := Text.isBlank_getLast?_trim ' ' hlast
    simp at hblank

/-- **Setting ranges apart only isolates range operators**: it only inserts spaces, it
makes no empty piece, afterwards every operator is a piece of its own, and once is enough.
So a line has an empty token only if two spaces meet in it. -/
theorem isolateRanges_only_isolates (text : String) :
    let cs := text.toList
    let pieces := (isolateRanges cs).splitOn ' '
    (isolateRanges cs).filter (· != ' ') = cs.filter (· != ' ') ∧
      pieces.count [] = (cs.splitOn ' ').count [] ∧
      (∀ piece ∈ pieces, ['.', '.'] <:+: piece → piece = ['.', '.'] ∨ piece = ['.', '.', '=']) ∧
      isolateRanges (isolateRanges cs) = isolateRanges cs ∧
      ∀ number fault, tokenizeLine text number = .error fault → fault.cause = .emptyToken →
        [' ', ' '] <:+: trim cs := by
  intro cs pieces
  exact ⟨filter_isolateRanges cs, count_nil_isolateRanges cs, apart_of_mem_isolateRanges cs,
    isolateRanges_of_apart (apart_of_mem_isolateRanges cs),
    fun number fault h hcause => spaces_of_emptyToken h hcause⟩

/-- Two operators that touch each other and what is around them become pieces, and the two
spaces further on are what the line fails for. -/
theorem isolateRanges_only_isolates_touching :
    let text := "0....=9  x"
    let pieces := (isolateRanges text.toList).splitOn ' '
    let inclusive := ['.', '.', '=']
    pieces = [['0'], ['.', '.'], inclusive, ['9'], [], ['x']] ∧
      (inclusive = ['.', '.'] ∨ inclusive = ['.', '.', '=']) ∧
      tokenizeLine text 4 = .error ⟨.emptyToken, 4⟩ ∧ [' ', ' '] <:+: trim text.toList := by
  intro text pieces inclusive
  have hpieces : pieces = [['0'], ['.', '.'], inclusive, ['9'], [], ['x']] := by decide
  have hline : tokenizeLine text 4 = .error ⟨.emptyToken, 4⟩ := by cbv
  obtain ⟨-, -, hapart, -, hspaces⟩ := isolateRanges_only_isolates text
  refine ⟨hpieces, hapart inclusive ?_ ⟨[], ['='], rfl⟩, hline, hspaces 4 _ hline rfl⟩
  show inclusive ∈ pieces
  simp [hpieces]

end Token

end LineScript
