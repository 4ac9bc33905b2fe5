import LineScript.Proofs.Stateful
import LineScript.Run
import Mathlib.Logic.Function.Basic

/-!
# LineScript.Proofs.Renaming.Basic

New numbers for lines and new names for variables.  A renaming acts on everything
that holds a number or a name: tokens and lines, trees, records and faults.  Numbers
may be given in any way, but different names stay different, and the name that every
loop gives to its element stays.
-/

namespace LineScript

/-- New numbers for lines and new names for variables. -/
structure Renaming where
  line : Nat → Nat
  name : String → String
  name_injective : Function.Injective name
  name_loopName : name loopName = loopName

namespace Renaming

/-- New numbers for lines alone. -/
def ofLine (line : Nat → Nat) : Renaming where
  line := line
  name := id
  name_injective := Function.injective_id
  name_loopName := rfl

/-- New names for variables alone. -/
def ofName (name : String → String) (injective : Function.Injective name)
    (loop : name loopName = loopName) : Renaming where
  line := id
  name := name
  name_injective := injective
  name_loopName := loop

variable (ρ : Renaming)

/-! ## tokens and lines -/

/-- A renamed token; only a word holds a name. -/
def token : Token → Token
  | .word name => .word (ρ.name name)
  | token => token

/-- A renamed line. -/
def sourceLine (line : SourceLine) : SourceLine := ⟨ρ.line line.number, line.tokens.map ρ.token⟩

/-- A renamed line, on its level. -/
def nestedLine (line : NestedLine) : NestedLine := ⟨ρ.sourceLine line.toSourceLine, line.level⟩

/-- A renamed group. -/
def group (g : Group) : Group := ⟨ρ.nestedLine g.head, g.rest.map ρ.nestedLine⟩

/-! ## trees -/

mutual

/-- A renamed tree. -/
def expr : Expr → Expr
  | .literal line value => .literal (ρ.line line) value
  | .var line name => .var (ρ.line line) (ρ.name name)
  | .not line operand => .not (ρ.line line) (expr operand)
  | .binary line op left right => .binary (ρ.line line) op (expr left) (expr right)
  | .assign line name value => .assign (ρ.line line) (ρ.name name) (expr value)
  | .print line value => .print (ρ.line line) (expr value)
  | .branch line condition body none =>
    .branch (ρ.line line) (expr condition) (exprs body) none
  | .branch line condition body (some otherwise) =>
    .branch (ρ.line line) (expr condition) (exprs body) (some (exprs otherwise))
  | .loop line name range body =>
    .loop (ρ.line line) (name.map ρ.name) (expr range) (exprs body)

/-- Renamed trees, in order. -/
def exprs : List Expr → List Expr
  | [] => []
  | e :: es => expr e :: exprs es

end

/-! ## what a run leaves -/

/-- A renamed record; values hold no names. -/
def record : Record → Record
  | .assign line name value => .assign (ρ.line line) (ρ.name name) value
  | .value line value => .value (ρ.line line) value
  | .print line value => .print (ρ.line line) value
  | .branch line condition => .branch (ρ.line line) condition
  | .loop line iterations => .loop (ρ.line line) iterations

/-- A renamed binding. -/
def binding (b : Binding) : Binding := ⟨ρ.name b.name, b.value⟩

/-! ## faults -/

/-- A fault whose cause changes as given. -/
def fault {κ : Type} (cause : κ → κ) (fault : Fault κ) : Fault κ :=
  ⟨cause fault.cause, ρ.line fault.line⟩

/-- A renamed cause; only an assignment that is repeated names a variable. -/
def parseCause : ParseCause → ParseCause
  | .doubleAssignment name => .doubleAssignment (ρ.name name)
  | cause => cause

/-- A renamed cause; only a variable without a value is named. -/
def evalCause : EvalCause → EvalCause
  | .unknownVariable name => .unknownVariable (ρ.name name)
  | cause => cause

/-- A renamed error. -/
def error : Error → Error
  | .lex fault => .lex (ρ.fault id fault)
  | .parse fault => .parse (ρ.fault ρ.parseCause fault)
  | .check fault => .check (ρ.fault id fault)
  | .eval fault => .eval (ρ.fault ρ.evalCause fault)

end Renaming

end LineScript
