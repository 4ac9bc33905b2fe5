import LineScript.Run

/-!
# LineScript.CommandLine.Arguments

The arguments of the command line: at most one file and a few switches, each
given at most once.  Short switches may be written together after one dash, and
everything after a double dash is a file.
-/

namespace LineScript.CommandLine

/-- The switches. -/
inductive Switch where
  /-- Start a session. -/
  | interactive
  /-- Run programs unchecked. -/
  | noCheck
  /-- Log more; the output of programs stays the same. -/
  | verbose
  deriving DecidableEq, Repr

namespace Switch

/-- The switch with the given long name. -/
def ofLong? (name : String) : Option Switch :=
  if name = "interactive" then some interactive
  else if name = "no-check" then some noCheck
  else if name = "verbose" then some verbose
  else none

/-- The switch with the given short name. -/
def ofShort? (name : Char) : Option Switch :=
  if name = 'i' then some interactive else if name = 'v' then some verbose else none

end Switch

/-- The arguments read so far. -/
structure Arguments where
  switches : List Switch := []
  file : Option String := none
  deriving DecidableEq, Repr

namespace Arguments

/-- Add a switch that was not given before. -/
def addSwitch (args : Arguments) (switch : Option Switch) : Option Arguments := do
  let switch ← switch
  if switch ∈ args.switches then none
  else some { args with switches := switch :: args.switches }

/-- Add the one file. -/
def addFile (args : Arguments) (path : String) : Option Arguments :=
  if args.file.isSome ∨ path = "" then none else some { args with file := some path }

/-- Read further arguments. -/
def read (args : Arguments) : List String → Option Arguments
  | [] => some args
  | arg :: rest =>
    match arg.toList with
    | ['-', '-'] => rest.foldlM addFile args
    | '-' :: '-' :: name => do
      (← args.addSwitch (Switch.ofLong? (String.ofList name))).read rest
    | '-' :: name :: names => do
      let args ← (name :: names).foldlM (fun args name => args.addSwitch (Switch.ofShort? name)) args
      args.read rest
    | _ => do
      (← args.addFile arg).read rest

end Arguments

/-- What the command line asks for. -/
inductive Task where
  /-- Run the program in a file. -/
  | runFile (path : String) (options : Options)
  /-- Run a session. -/
  | interact (options : Options)
  deriving DecidableEq, Repr

namespace Task

/-- What arguments ask for.  A file and a session exclude each other. -/
def ofArguments? (args : Arguments) : Option Task :=
  let options : Options := ⟨Switch.noCheck ∉ args.switches⟩
  match args.file with
  | none => some (interact options)
  | some path => if Switch.interactive ∈ args.switches then none else some (runFile path options)

/-- What the command line asks for, if its arguments make sense. -/
def ofArgs? (args : List String) : Option Task :=
  (Arguments.read {} args).bind ofArguments?

/-- Without arguments the session is interactive and checked. -/
example : ofArgs? [] = some (interact {}) := rfl

end Task

end LineScript.CommandLine
