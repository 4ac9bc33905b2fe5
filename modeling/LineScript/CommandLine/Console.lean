import LineScript.CommandLine.Arguments
import LineScript.Session

/-!
# LineScript.CommandLine.Console

What the command line answers, as a function of its arguments, of the files it
can read and of its input.  `Exit` is the whole answer of a finished run;
`answer` is one exchange of a session, so that an outer loop can show it at
once.
-/

namespace LineScript.CommandLine

/-- The whole answer of a finished run. -/
structure Exit where
  code : Nat
  stdout : ByteArray := .empty
  stderr : String := ""

/-- The line that reports an error. -/
def report (e : Error) : String := "[ERROR] " ++ e.message ++ "\n"

/-! ## a file -/

/-- The answer for a file that cannot be read as text. -/
def unreadable (path : String) : Exit :=
  { code := 1, stderr := "Error: cannot read the file '" ++ path ++ "'\n" }

/-- Run a program text. -/
def runText (options : Options) (source : String) : Exit :=
  match runSource options source ({} : Buffer) with
  | .ok _ out => { code := 0, stdout := out.bytes }
  | .error e out => { code := 1, stdout := out.bytes, stderr := report e }

/-- Run the program in a file with the given contents. -/
def runFile (options : Options) (path : String) (contents : Option ByteArray) : Exit :=
  match contents.bind String.fromUTF8? with
  | some source => runText options source
  | none => unreadable path

/-! ## a session -/

/-- The first line of a session. -/
def greeting : String := "Welcome to IDK interactive!\n"

/-- What a session shows when it waits for a line. -/
def promptText : Prompt → String
  | .statement => "$ "
  | .continuation => "... "

/-- One exchange of a session. -/
inductive Reply where
  /-- Stop with an exit code. -/
  | stop (code : Nat)
  /-- Show text and go on. -/
  | next (session : Session) (shown : ByteArray)

/-- Whether a line asks to leave the session. -/
def isExit (line : List Char) : Bool := Text.trim line = "exit".toList

/-- Answer one line of input, given as bytes with its line feed. -/
def answer (session : Session) (input : ByteArray) : Reply :=
  match String.fromUTF8? input with
  | none => .stop 1
  | some text =>
    let line := Text.dropRightWhile (fun c => c = '\n' ∨ c = '\r') text.toList
    if isExit line then .stop 0
    else
      match Session.submit (String.ofList line) (session, ({} : Buffer)) with
      | .ok _ (session, out) => .next session out.bytes
      | .error e (session, out) => .next session (out.bytes ++ (report e).toUTF8)

/-- Answer all lines of input.  The input ends a session as `exit` does. -/
def interact (session : Session) : List (List UInt8) → Exit
  | [] => { code := 0, stdout := (promptText session.prompt).toUTF8 }
  | line :: lines =>
    let prompt := (promptText session.prompt).toUTF8
    match answer session line.toByteArray with
    | .stop code => { code, stdout := prompt }
    | .next session shown =>
      let rest := interact session lines
      { rest with stdout := prompt ++ shown ++ rest.stdout }

/-- Run a session on the given input. -/
def runSession (options : Options) (stdin : ByteArray) : Exit :=
  let rest := interact { options } (Text.splitAfter 10 stdin.toList)
  { rest with stdout := greeting.toUTF8 ++ rest.stdout }

/-! ## all together -/

/-- The answer to arguments that make no sense. -/
def usageError : Exit := { code := 2, stderr := "Error: wrong arguments\n" }

/-- The answer of the command line, where `contents` gives the bytes of the
files that can be read. -/
def run (args : List String) (contents : String → Option ByteArray) (stdin : ByteArray) : Exit :=
  match Task.ofArgs? args with
  | none => usageError
  | some (.runFile path options) => runFile options path (contents path)
  | some (.interact options) => runSession options stdin

end LineScript.CommandLine
