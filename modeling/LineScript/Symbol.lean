/-!
# LineScript.Symbol

Keywords and operators: how they are spelled, the tables by which they are found, and
how tightly operators bind.

* `Keyword.ofSpelling?_eq_some_iff`, `Operator.ofSpelling?_eq_some_iff` — the tables
  agree with the spellings.
-/

namespace LineScript

/-! ## keywords -/

/-- The words that start a line of their own kind. -/
inductive Keyword where
  | print
  | ifTrue
  | orElse
  | forEach
  | whileTrue
  | endBlock
  deriving DecidableEq, Repr

namespace Keyword

/-- How a keyword is written. -/
def spelling : Keyword → String
  | print => "print"
  | ifTrue => "if"
  | orElse => "else"
  | forEach => "for"
  | whileTrue => "while"
  | endBlock => "end"

/-- Every keyword. -/
def all : List Keyword := [print, ifTrue, orElse, forEach, whileTrue, endBlock]

theorem mem_all (k : Keyword) : k ∈ all := by
  cases k <;> decide

/-- The table of keywords. -/
def table : List (String × Keyword) :=
  [("print", print), ("if", ifTrue), ("else", orElse), ("for", forEach), ("while", whileTrue),
    ("end", endBlock)]

/-- The keyword with the given spelling. -/
def ofSpelling? (s : String) : Option Keyword := table.lookup s

/-- The table agrees with the spellings. -/
theorem ofSpelling?_eq_some_iff {s : String} {k : Keyword} :
    ofSpelling? s = some k ↔ k.spelling = s := by
  constructor
  · intro h
    obtain ⟨before, after, htable, -⟩ := List.lookup_eq_some_iff.mp h
    have hmem : (s, k) ∈ table := htable ▸ by simp
    have hall : ∀ entry ∈ table, entry.2.spelling = entry.1 := by decide
    exact hall (s, k) hmem
  · rintro rfl
    cases k <;> rfl

/-- Whether a line that starts with the keyword opens a block. -/
def opensBlock : Keyword → Bool
  | ifTrue | forEach | whileTrue => true
  | print | orElse | endBlock => false

end Keyword

/-! ## operators -/

/-- The operators that stand between two operands. -/
inductive BinaryOp where
  | mul
  | div
  | add
  | sub
  | range
  | rangeInclusive
  | equal
  | greater
  | greaterEqual
  | less
  | lessEqual
  | isIn
  | and
  | or
  | xor
  deriving DecidableEq, Repr

namespace BinaryOp

/-- How an operator is written. -/
def spelling : BinaryOp → String
  | mul => "*"
  | div => "/"
  | add => "+"
  | sub => "-"
  | range => ".."
  | rangeInclusive => "..="
  | equal => "="
  | greater => ">"
  | greaterEqual => ">="
  | less => "<"
  | lessEqual => "<="
  | isIn => "in"
  | and => "and"
  | or => "or"
  | xor => "xor"

/-- How tightly an operator binds its operands; a larger number binds more
tightly. -/
def bindingPower : BinaryOp → Nat
  | mul | div => 6
  | add | sub => 5
  | range | rangeInclusive => 4
  | equal | greater | greaterEqual | less | lessEqual | isIn => 3
  | and | or | xor => 2

/-- Every operator between two operands. -/
def all : List BinaryOp :=
  [mul, div, add, sub, range, rangeInclusive, equal, greater, greaterEqual, less, lessEqual, isIn,
    and, or, xor]

/-- Whether the operator builds a range. -/
def isRange : BinaryOp → Bool
  | range | rangeInclusive => true
  | _ => false

end BinaryOp

/-- The operators: those between two operands, negation of a truth value, and
assignment. -/
inductive Operator where
  | binary (op : BinaryOp)
  | not
  | assign
  deriving DecidableEq, Repr

namespace Operator

/-- How an operator is written. -/
def spelling : Operator → String
  | binary op => op.spelling
  | not => "not"
  | assign => ":="

/-- How tightly an operator binds; `not` is looser than every operator between
two operands, and assignment is the loosest. -/
def bindingPower : Operator → Nat
  | binary op => op.bindingPower
  | not => 1
  | assign => 0

/-- Every operator. -/
def all : List Operator := not :: assign :: BinaryOp.all.map binary

theorem mem_all (op : Operator) : op ∈ all := by
  cases op with
  | binary op => cases op <;> decide
  | not => decide
  | assign => decide

/-- The table of operators. -/
def table : List (String × Operator) :=
  [(":=", assign), ("+", binary .add), ("-", binary .sub), ("*", binary .mul), ("/", binary .div),
    ("=", binary .equal), (">", binary .greater), (">=", binary .greaterEqual),
    ("<", binary .less), ("<=", binary .lessEqual), ("not", not), ("and", binary .and),
    ("or", binary .or), ("xor", binary .xor), ("in", binary .isIn), ("..", binary .range),
    ("..=", binary .rangeInclusive)]

/-- The operator with the given spelling. -/
def ofSpelling? (s : String) : Option Operator := table.lookup s

/-- The table agrees with the spellings. -/
theorem ofSpelling?_eq_some_iff {s : String} {op : Operator} :
    ofSpelling? s = some op ↔ op.spelling = s := by
  constructor
  · intro h
    obtain ⟨before, after, htable, -⟩ := List.lookup_eq_some_iff.mp h
    have hmem : (s, op) ∈ table := htable ▸ by simp
    have hall : ∀ entry ∈ table, entry.2.spelling = entry.1 := by decide
    exact hall (s, op) hmem
  · rintro rfl
    cases op with
    | binary op => cases op <;> rfl
    | not => rfl
    | assign => rfl

end Operator

end LineScript
