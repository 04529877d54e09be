import PocketCalc.CommandLine.Execution

/-!
# The program

Reads the arguments, the environment, the settings file and the input, and prints
what the command says. The interactive loop answers each line as it comes.
-/

namespace PocketCalc

/-- Prints a report and hands over its exit code. -/
def printReport (r : Report) : IO UInt32 := do
  let stdout ← IO.getStdout
  stdout.putStr (String.ofList r.out)
  stdout.flush
  for line in r.notices do
    IO.eprintln (String.ofList line)
  return r.exitCode.toUInt32

/-- Why a file could not be read. -/
def readErrorOf : IO.Error → ReadError
  | .noFileOrDirectory .. => .missing
  | .permissionDenied .. => .denied
  | .inappropriateType .. => .directory
  | e => .other (toString e)

def readConfig (path : String) : IO ConfigFile := do
  try
    return ⟨path, .ok (← IO.FS.readFile path).toList⟩
  catch e =>
    return ⟨path, .error (readErrorOf e)⟩

/-- Presses the keys on each line of the input and answers it at once. -/
partial def serveRepl (p : Printer) (s : Session) : IO UInt32 := do
  let line ← (← IO.getStdin).getLine
  if line.isEmpty || endsRepl line.toList then
    return 0
  let (output, s) := s.repl p line.toList
  let _ ← printReport { out := unlines output.out, notices := output.notices }
  serveRepl p s

def program (arguments : List String) : IO UInt32 := do
  match Invocation.ofArguments arguments with
  | .error halt => printReport halt.report
  | .ok invocation =>
    let file ← (invocation.configPath? (← IO.getEnv "KEYCALC_CONFIG")).mapM readConfig
    let isTerminal ← (← IO.getStdout).isTty
    match invocation.command, ConfigFile.settings file with
    | .repl, .ok settings =>
      let options := invocation.options
      serveRepl (options.printer isTerminal) (Session.new (options.adjust settings))
    | _, _ => printReport (invocation.execute file isTerminal [])

end PocketCalc

def main (arguments : List String) : IO UInt32 :=
  PocketCalc.program arguments
