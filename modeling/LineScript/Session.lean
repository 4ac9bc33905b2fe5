import LineScript.Run

/-!
# LineScript.Session

Sessions: a program entered line by line.  Lines are collected until every block
they open is closed.  The completed statement then runs together with all
statements accepted before it, from an empty history, but without what earlier
statements printed at top level.  A statement that fails at any stage is
forgotten.
-/

namespace LineScript

/-- What a session waits for. -/
inductive Prompt where
  /-- A new statement. -/
  | statement
  /-- More lines of an open block. -/
  | continuation
  deriving DecidableEq, Repr

/-- A program entered line by line. -/
structure Session where
  options : Options := {}
  /-- The records of the last run. -/
  history : History := []
  /-- The lines of the accepted statements. -/
  committed : List SourceLine := []
  /-- The lines of the statement being entered. -/
  pending : List SourceLine := []
  /-- The number of blocks open in the pending lines. -/
  depth : Int := 0
  /-- The number of the next line. -/
  nextLine : Nat := 1

namespace Session

/-- What the session waits for. -/
def prompt (s : Session) : Prompt := if s.pending.isEmpty then .statement else .continuation

/-- Forget the statement being entered. -/
def discard (s : Session) : Session := { s with pending := [], depth := 0 }

/-- Accept the statement being entered. -/
def commit (s : Session) : Session :=
  { s with committed := s.committed ++ s.pending, pending := [], depth := 0 }

/-- Add a line to the statement being entered. -/
def enter (s : Session) (line : SourceLine) : Session :=
  { s with pending := s.pending ++ [line], depth := s.depth + nestingDelta line.tokens }

/-- The number of the first line of the statement being entered. -/
def firstPending (s : Session) : Nat := (s.pending.head?.map SourceLine.number).getD s.nextLine

/-- The accepted statements and the one being entered, without the top-level
printing of the accepted ones. -/
def program (s : Session) : Except Error Program := do
  let program ← (parse (s.committed ++ s.pending)).mapError .parse
  let program := program.filter fun e => !(e.isPrint && e.line < s.firstPending)
  s.options.validate program
  return program

variable {σ : Type} [Sink σ]

/-- Run everything entered so far from an empty history. -/
def run : EStateM Error (Session × σ) Unit := fun (s, out) =>
  match s.program with
  | .error e => .error e (s, out)
  | .ok program =>
    match Transcript.evaluate program ⟨[], out⟩ with
    | .ok () t => .ok () ({ s with history := t.history }, t.out)
    | .error fault t => .error (.eval fault) ({ s with history := t.history }, t.out)

/-- Run the completed statement, and accept it or forget it. -/
def complete : EStateM Error (Session × σ) Prompt := fun state =>
  match run state with
  | .ok () (s, out) => .ok .statement (s.commit, out)
  | .error e (s, out) => .error e (s.discard, out)

/-- Enter one line.  Every line takes a number, also a blank one. -/
def submit (text : String) : EStateM Error (Session × σ) Prompt := fun (s, out) =>
  let number := s.nextLine
  let s := { s with nextLine := number + 1 }
  match tokenizeLine text number with
  | .error fault => .error (.lex fault) (s.discard, out)
  | .ok [] => .ok s.prompt (s, out)
  | .ok tokens =>
    let s := s.enter ⟨number, tokens⟩
    if 0 < s.depth then .ok .continuation (s, out) else complete (s, out)

end Session

end LineScript
