import LineScript.Token.Basic
import LineScript.Token.Pattern

/-!
# LineScript.Token.Rule

The rules of tokens.  A rule gives a token to the texts that follow its pattern.  What
comes next in a text is its longest beginning that follows the pattern of some rule;
the first of these rules decides which token it is, so that the symbols stand before the
names.  A text that is one token to its end is told by the rule it follows as a whole.

* `longest?_eq_some_iff` — no longer beginning follows a rule;
* `whole?_eq_ofPattern?` — a text is one token exactly if it has one as a whole.
-/

namespace LineScript.Token

/-! ## rules -/

/-- The truth value with the given spelling. -/
def boolOfSpelling? (s : String) : Option Bool :=
  if s = "true" then some true else if s = "false" then some false else none

/-- The symbol with the given spelling. -/
def symbol? (s : String) : Option Token :=
  match boolOfSpelling? s with
  | some b => some (.literal (.bool b))
  | none =>
    match Keyword.ofSpelling? s with
    | some k => some (.keyword k)
    | none => (Operator.ofSpelling? s).map .operator

/-- A pattern, and the token of a text that follows it, if it has one. -/
structure Rule where
  pattern : Pattern
  token? : List Char → Option Token

namespace Rule

/-- Integers.  One that is beyond the numbers of the language has no token. -/
def integer : Rule where
  pattern := Pattern.integer
  token? cs := (Number.read? cs).map fun n => .literal (.int n)

/-- Quoted characters. -/
def quoted : Rule where
  pattern := Pattern.quoted
  token? cs := cs[1]?.map fun c => .literal (.char c)

/-- Symbols. -/
def symbol : Rule where
  pattern cs := (symbol? (String.ofList cs)).isSome
  token? cs := symbol? (String.ofList cs)

/-- Names. -/
def name : Rule where
  pattern := Pattern.name
  token? cs := some (.word (String.ofList cs))

end Rule

/-- The rules other than that of integers. -/
def otherRules : List Rule := [.quoted, .symbol, .name]

/-- All rules. -/
def rules : List Rule := .integer :: otherRules

/-- The first rule that a text follows as a whole. -/
def rule? (cs : List Char) : Option Rule := rules.find? (·.pattern cs)

/-- The token of a text as a whole. -/
def ofPattern? (cs : List Char) : Option Token := (rule? cs).bind (·.token? cs)

/-- The token of a text as a whole by a rule other than that of integers. -/
def nonInteger? (cs : List Char) : Option Token :=
  (otherRules.find? (·.pattern cs)).bind (·.token? cs)

/-- The rule of integers comes first. -/
theorem ofPattern?_eq (cs : List Char) :
    ofPattern? cs =
      if Pattern.integer cs then (Number.read? cs).map fun n => .literal (.int n)
      else nonInteger? cs := by
  unfold ofPattern? nonInteger? rule? rules
  cases h : Pattern.integer cs with
  | true => simp [Rule.integer, h]
  | false => simp [Rule.integer, h]

/-- Then come quoted characters, symbols and names. -/
theorem nonInteger?_eq (cs : List Char) :
    nonInteger? cs =
      if Pattern.quoted cs then cs[1]?.map fun c => .literal (.char c)
      else (symbol? (String.ofList cs)).or
        (if Pattern.name cs then some (.word (String.ofList cs)) else none) := by
  unfold nonInteger? otherRules
  cases hquoted : Pattern.quoted cs with
  | true => simp [Rule.quoted, hquoted]
  | false =>
      cases hsymbol : symbol? (String.ofList cs) with
      | some t => simp [Rule.quoted, Rule.symbol, hquoted, hsymbol]
      | none =>
          cases hname : Pattern.name cs <;>
            simp [Rule.quoted, Rule.symbol, Rule.name, hquoted, hsymbol, hname]

/-! ## what comes next -/

/-- The longest beginning of at most `n` characters that follows a rule: the rule and the
number of characters. -/
def longest? (cs : List Char) : Nat → Option (Rule × Nat)
  | 0 => none
  | n + 1 =>
    match rule? (cs.take (n + 1)) with
    | some r => some (r, n + 1)
    | none => longest? cs n

theorem longest?_eq_some_iff {cs : List Char} {n m : Nat} {r : Rule} :
    longest? cs n = some (r, m) ↔
      0 < m ∧ m ≤ n ∧ rule? (cs.take m) = some r ∧
        ∀ k, m < k → k ≤ n → rule? (cs.take k) = none := by
  induction n with
  | zero =>
      simp only [longest?, reduceCtorEq, false_iff]
      omega
  | succ n ih =>
      unfold longest?
      cases hrule : rule? (cs.take (n + 1)) with
      | some r' =>
          -- Nothing longer than all of it is asked for, and nothing shorter is longest.
          constructor
          · rintro ⟨⟩
            exact ⟨by omega, Nat.le_refl _, hrule, by omega⟩
          · rintro ⟨-, hle, hm, hlonger⟩
            by_cases heq : m = n + 1
            · rw [heq, hrule] at hm
              rw [heq, Option.some.inj hm]
            · rw [hlonger (n + 1) (by omega) (Nat.le_refl _)] at hrule
              contradiction
      | none =>
          refine ih.trans ⟨?_, ?_⟩
          · rintro ⟨hpos, hle, hm, hlonger⟩
            refine ⟨hpos, by omega, hm, fun k hk hkn => ?_⟩
            by_cases heq : k = n + 1
            · rw [heq, hrule]
            · exact hlonger k hk (by omega)
          · rintro ⟨hpos, hle, hm, hlonger⟩
            have hne : m ≠ n + 1 := by
              rintro rfl
              rw [hrule] at hm
              contradiction
            exact ⟨hpos, by omega, hm, fun k hk hkn => hlonger k hk (by omega)⟩

/-- What comes next in a text: nothing, a token and what is left, or a text of no token. -/
inductive Next where
  | nothing
  | token (t : Token) (rest : List Char)
  | failure
  deriving DecidableEq, Repr

/-- What comes next in a text. -/
def next (cs : List Char) : Next :=
  if cs.isEmpty then .nothing
  else
    match longest? cs cs.length with
    | none => .failure
    | some (r, n) =>
      match r.token? (cs.take n) with
      | some t => .token t (cs.drop n)
      | none => .failure

/-- The token of a text that is one token to its end. -/
def whole? (cs : List Char) : Option Token :=
  match next cs with
  | .token t rest => if rest.isEmpty ∧ next rest = .nothing then some t else none
  | _ => none

/-- A text that follows a rule as a whole is its own longest beginning. -/
theorem next_of_rule? {cs : List Char} {r : Rule} (hne : cs ≠ []) (h : rule? cs = some r) :
    next cs = match r.token? cs with
      | some t => .token t []
      | none => .failure := by
  have hlongest : longest? cs cs.length = some (r, cs.length) := by
    refine longest?_eq_some_iff.mpr ⟨List.length_pos_iff.mpr hne, Nat.le_refl _, ?_, by omega⟩
    rw [List.take_length, h]
  rw [next, if_neg (by simpa using hne), hlongest]
  simp only [List.take_length, List.drop_length]

/-- Of a text that does not, something is left. -/
theorem ne_nil_of_next {cs rest : List Char} {t : Token} (h : rule? cs = none)
    (hnext : next cs = .token t rest) : rest ≠ [] := by
  unfold next at hnext
  split at hnext
  · contradiction
  · split at hnext
    · contradiction
    · next r n hlongest =>
      split at hnext
      · obtain ⟨-, hle, hrule, -⟩ := longest?_eq_some_iff.mp hlongest
        obtain ⟨-, rfl⟩ := Next.token.inj hnext
        intro hnil
        have hlength : cs.length ≤ n := List.drop_eq_nil_iff.mp hnil
        rw [List.take_of_length_le hlength, h] at hrule
        contradiction
      · contradiction

/-- A text is one token to its end exactly if it has one as a whole. -/
theorem whole?_eq_ofPattern? {cs : List Char} (hne : cs ≠ []) : whole? cs = ofPattern? cs := by
  unfold whole? ofPattern?
  cases hrule : rule? cs with
  | some r =>
      rw [next_of_rule? hne hrule]
      cases htoken : r.token? cs with
      | some t => simp [htoken, next]
      | none => simp [htoken]
  | none =>
      split
      · next t rest hnext =>
        have hrest := ne_nil_of_next hrule hnext
        simp [hrest]
      · rfl

end LineScript.Token
