import LineScript.Eval.Transcript
import LineScript.Program.Parser
import LineScript.Token.Lexer
import LineScript.Typing

/-!
# LineScript.Run

Running a whole text: it is cut into tokens, read as a program, checked unless
the options say otherwise, and evaluated from an empty history.
-/

namespace LineScript

/-- How programs are run. -/
structure Options where
  /-- Whether a program is checked before it runs. -/
  check : Bool := true
  deriving DecidableEq, Repr

namespace Options

/-- Check a program if the options ask for it. -/
def validate (options : Options) (program : Program) : Except Error Unit :=
  if options.check then program.check.mapError .check else .ok ()

end Options

/-- The program of a text, ready to run. -/
def compile (options : Options) (source : String) : Except Error Program := do
  let lines ← (tokenize source).mapError .lex
  let program ← (parse lines).mapError .parse
  options.validate program
  return program

/-- Run a text from an empty history.  The sink keeps what was printed before a
failure. -/
def runSource {σ : Type} [Sink σ] (options : Options) (source : String) :
    EStateM Error σ History := fun out =>
  match compile options source with
  | .error e => .error e out
  | .ok program =>
    match Transcript.evaluate program ⟨[], out⟩ with
    | .ok () t => .ok t.history t.out
    | .error fault t => .error (.eval fault) t.out

end LineScript
