import PocketCalc.CommandLine.Arguments
import PocketCalc.CommandLine.Verbosity
import PocketCalc.Repl
import PocketCalc.SettingsFile

/-!
# Carrying out a command

A command turns the settings file, the environment and the input into an exit code,
the output, and lines beside the output.

* `Invocation.configPath?` — the settings file that is to be read.
* `Invocation.execute` — what a command does with its content.
* `Halt.report` — what is printed instead of a command's output.
-/

namespace PocketCalc

/-- What a command leaves behind. -/
structure Report where
  exitCode : UInt8 := 0
  out : List Char := []
  /-- Lines beside the output. -/
  notices : List (List Char) := []
  deriving DecidableEq, Repr

/-! ## Settings -/

/-- Why a file cannot be read. -/
inductive ReadError where
  | missing
  | directory
  | denied
  | other (reason : String)
  deriving DecidableEq, Repr

/-- The wording of a read error. -/
def ReadError.message : ReadError → String
  | missing => "No such file or directory (os error 2)"
  | directory => "Is a directory (os error 21)"
  | denied => "Permission denied (os error 13)"
  | other reason => reason

/-- A settings file: its path, and its content if it could be read. -/
structure ConfigFile where
  path : String
  content : Except ReadError (List Char)

/-- Why a command fails. -/
inductive Failure where
  | unreadable (path : String) (error : ReadError)
  | invalidYaml
  | unknownKey (key : UnknownKey)
  deriving DecidableEq, Repr

/-- The wording of a failure. -/
def Failure.message : Failure → String
  | unreadable path error => "Configuration error: cannot read " ++ path ++ ": " ++ error.message
  | invalidYaml => "Invalid YAML"
  | unknownKey key => key.message

/-- The report of a failure. -/
def Failure.report (f : Failure) : Report where
  exitCode := 1
  notices := ["Error: ".toList ++ f.message.toList]

/-- The settings in a file, or the defaults where there is none. -/
def ConfigFile.settings : Option ConfigFile → Except Failure Settings
  | none => .ok {}
  | some file =>
    match file.content with
    | .error e => .error (.unreadable file.path e)
    | .ok text =>
      match Settings.ofFile? text with
      | some settings => .ok settings
      | none => .error .invalidYaml

namespace Options

/-- Settings with the mode and the angle unit of the options in their place. -/
def adjust (o : Options) (s : Settings) : Settings :=
  { s with mode := o.mode.getD s.mode, angleUnit := o.angleUnit.getD s.angleUnit }

/-- How the output is printed. -/
def printer (o : Options) (isTerminal : Bool) : Printer :=
  let useColor :=
    match o.color.getD .auto with
    | .auto => isTerminal
    | .always => true
    | .never => false
  .new useColor o.json

end Options

/-! ## Commands -/

/-- A step on a line of its own: what was pressed, in a column of twelve, and the
display. -/
def Step.row (s : Step) : List Char :=
  let caption := s.event.caption.toList
  caption ++ List.replicate (12 - caption.length) ' ' ++ ' ' :: s.line

/-- Lines, each with a line feed. -/
def unlines (lines : List (List Char)) : List Char :=
  lines.flatMap fun line => line ++ ['\n']

/-- Presses keys and prints the display at the end, and after every key if asked to. -/
def runKeys (o : Options) (p : Printer) (settings : Settings) (keys : List String)
    (steps : Bool) : Report :=
  match (Session.new settings).press keys with
  | (.error e, _) => (Failure.unknownKey e).report
  | (.ok pressed, after) =>
    let display := after.calculator.display
    let rows := if steps && !o.json then pressed.map Step.row else []
    let isVerbose := (Verbosity.ofCount (o.verbosity.getD 0)).isVerbose
    { out := unlines (rows ++ [p.render display])
      notices := noticesOf p pressed ++ if isVerbose && !o.json then [p.status display] else [] }

/-- Presses the keys on each line of an input. -/
def runRepl (p : Printer) (settings : Settings) (input : List Char) : Report :=
  let output := ((Session.new settings).repl p input).1
  { out := unlines output.out, notices := output.notices }

/-- Prints the keypad of a mode. -/
def printKeypad (p : Printer) (mode : Mode) : Report :=
  let keypad := Keypad.ofMode mode
  { out := if p.json then unlines [p.writer keypad.toJson] else p.table keypad }

namespace Invocation

/-- The settings file of a command: the one that an option names, otherwise the one
that the environment names. -/
def configPath? (i : Invocation) (environment : Option String) : Option String :=
  i.options.config.or environment

/-- Carries out a command. -/
def execute (i : Invocation) (file : Option ConfigFile) (isTerminal : Bool)
    (input : List Char) : Report :=
  match ConfigFile.settings file with
  | .error f => f.report
  | .ok settings =>
    let settings := i.options.adjust settings
    let p := i.options.printer isTerminal
    match i.command with
    | .run keys steps => runKeys i.options p settings keys steps
    | .repl => runRepl p settings input
    | .keypad => printKeypad p settings.mode

end Invocation

/-! ## Without a command -/

/-- How a place of the command line is used. -/
def Place.help : Place → List Char
  | .front => unlines ["Usage: keycalc [OPTIONS] <run|repl|keypad>".toList]
  | .run => unlines ["Usage: keycalc run [OPTIONS] <KEYS>...".toList]
  | .repl => unlines ["Usage: keycalc repl [OPTIONS]".toList]
  | .keypad => unlines ["Usage: keycalc keypad [OPTIONS]".toList]

/-- The version of the program. -/
def versionText : String := "0.3.0"

/-- What is printed where no command is carried out. -/
def Halt.report : Halt → Report
  | .help place => { out := place.help }
  | .version place => { out := unlines [(place.title ++ " " ++ versionText).toList] }
  | .usage error => { exitCode := 2, notices := [("error: " ++ error.message).toList] }

end PocketCalc
