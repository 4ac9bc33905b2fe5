import LineScript.CommandLine.Console

/-!
# LineScript.Main

The command line itself: it reads files and input, and shows what the console
answers.
-/

namespace LineScript.CommandLine

/-- Show an answer and give its exit code. -/
def showExit (e : Exit) : IO UInt32 := do
  let stdout ← IO.getStdout
  stdout.write e.stdout
  stdout.flush
  IO.eprint e.stderr
  return e.code.toUInt32

/-- The bytes of a file, if it can be read. -/
def contents (path : String) : IO (Option ByteArray) := do
  try
    return some (← IO.FS.readBinFile path)
  catch _ =>
    return none

/-- The bytes up to the next line feed, after those already read. -/
partial def readLine (stdin : IO.FS.Stream) (line : ByteArray) : IO ByteArray := do
  let byte ← stdin.read 1
  if byte.isEmpty then return line
  else if byte.toList = [10] then return line ++ byte
  else readLine stdin (line ++ byte)

/-- Exchange lines with the user until the session ends. -/
partial def converse (session : Session) : IO UInt32 := do
  let stdout ← IO.getStdout
  stdout.putStr (promptText session.prompt)
  stdout.flush
  let line ← readLine (← IO.getStdin) .empty
  if line.isEmpty then return 0
  match answer session line with
  | .stop code => return code.toUInt32
  | .next session shown =>
    stdout.write shown
    converse session

/-- Run a file or a session, as the arguments say. -/
def execute (args : List String) : IO UInt32 := do
  match Task.ofArgs? args with
  | none => showExit usageError
  | some (.runFile path options) => showExit (runFile options path (← contents path))
  | some (.interact options) =>
    IO.print greeting
    converse { options }

end LineScript.CommandLine

/-- The command line. -/
def main (args : List String) : IO UInt32 := LineScript.CommandLine.execute args
