import PocketCalc.Settings

/-!
# Arguments of a command

Options may stand in front of the command and behind it. Where an option is given
in both places the one behind the command counts, and within one place no option may
be repeated, except the one that counts. A value is joined to its option or is the
next argument; it does not begin with a dash, unless it is nothing else. A value that is
an argument of its own is looked at when the next option or key is read or the place
ends, and a place ends after the places behind it: where the command behind an option
asks for its version, a wrong value of that option does not matter. The argument `--`
ends the options.

* `Options` — what options say.
* `readArguments` — the options and words of one place, read from left to right.
* `Invocation.ofArguments` — the command of a whole command line.
-/

namespace PocketCalc

/-! ## Options -/

/-- When colours are used. -/
inductive ColorChoice where
  /-- On a terminal only. -/
  | auto
  | always
  | never
  deriving DecidableEq, Repr

/-- The choice with a name. -/
def ColorChoice.ofName? : String → Option ColorChoice
  | "auto" => some auto
  | "always" => some always
  | "never" => some never
  | _ => none

/-- The angle unit that an argument names, which may be short. -/
def AngleUnit.ofArgument? : String → Option AngleUnit
  | "rad" => some radians
  | "deg" => some degrees
  | name => ofName? name

/-- What options say. A missing one is `none`. -/
structure Options where
  /-- How often the output was asked to be verbose. -/
  verbosity : Option Nat := none
  color : Option ColorChoice := none
  mode : Option Mode := none
  angleUnit : Option AngleUnit := none
  /-- The path of a settings file. -/
  config : Option String := none
  json : Bool := false
  deriving DecidableEq, Repr

/-- Options behind a command on top of those in front of it. -/
def Options.over (inner outer : Options) : Options where
  verbosity := inner.verbosity.or outer.verbosity
  color := inner.color.or outer.color
  mode := inner.mode.or outer.mode
  angleUnit := inner.angleUnit.or outer.angleUnit
  config := inner.config.or outer.config
  json := inner.json || outer.json

/-! ## Commands -/

/-- What is to be done. -/
inductive Command where
  /-- Press keys and print the display, after each key or at the end. -/
  | run (keys : List String) (steps : Bool)
  /-- Press the keys on each line of the input. -/
  | repl
  /-- Print the keypad. -/
  | keypad
  deriving DecidableEq, Repr

/-- A command with its options. -/
structure Invocation where
  options : Options
  command : Command
  deriving DecidableEq, Repr

/-- A place on the command line: in front of the command, or behind one. -/
inductive Place where
  | front | run | repl | keypad
  deriving DecidableEq, Repr

namespace Place

/-- The command with a name. -/
def ofCommand? : String → Option Place
  | "run" => some run
  | "repl" => some repl
  | "keypad" => some keypad
  | _ => none

/-- The name under which a place reports its version. -/
def title : Place → String
  | front => "keycalc"
  | run => "keycalc-run"
  | repl => "keycalc-repl"
  | keypad => "keycalc-keypad"

end Place

/-! ## Errors -/

/-- What is wrong with a command line. -/
inductive UsageError where
  | missingCommand
  | unknownCommand (name : String)
  | missingKeys
  | unexpectedArgument (argument : String)
  | unknownOption (name : String)
  | repeatedOption (name : String)
  | missingValue (name : String)
  | invalidValue (name value : String)
  | unexpectedValue (name value : String)
  deriving DecidableEq, Repr

/-- The wording of a usage error. -/
def UsageError.message : UsageError → String
  | missingCommand => "a command is required: run, repl or keypad"
  | unknownCommand name => "unknown command '" ++ name ++ "'"
  | missingKeys => "keys are required"
  | unexpectedArgument argument => "unexpected argument '" ++ argument ++ "'"
  | unknownOption name => "unknown option '" ++ name ++ "'"
  | repeatedOption name => "option '" ++ name ++ "' is given more than once"
  | missingValue name => "option '" ++ name ++ "' needs a value"
  | invalidValue name value => "invalid value '" ++ value ++ "' for option '" ++ name ++ "'"
  | unexpectedValue name value => "option '" ++ name ++ "' takes no value, but got '" ++ value ++ "'"

/-- Why no command is carried out. -/
inductive Halt where
  | help (place : Place)
  | version (place : Place)
  | usage (error : UsageError)
  deriving DecidableEq, Repr

/-! ## Single options -/

/-- An option. -/
inductive Switch where
  | verbose | color | mode | angle | config | json | steps | help | version
  deriving DecidableEq, Repr

namespace Switch

/-- The long name of an option. -/
def name : Switch → String
  | verbose => "verbose"
  | color => "color"
  | mode => "mode"
  | angle => "angle"
  | config => "config"
  | json => "json"
  | steps => "steps"
  | help => "help"
  | version => "version"

/-- The options that may stand in a place. -/
def allowed (place : Place) : List Switch :=
  [verbose, color, mode, angle, config, json, help, version]
    ++ (if place = .run then [steps] else [])

/-- The option with a long name. -/
def ofLong? (place : Place) (name : String) : Option Switch :=
  (allowed place).find? fun s => s.name == name

/-- The option with a short name. -/
def ofShort? : Char → Option Switch
  | 'v' => some verbose
  | 'm' => some mode
  | 'a' => some angle
  | 'c' => some config
  | 'h' => some help
  | 'V' => some version
  | _ => none

/-- Options with a value. -/
def takesValue : Switch → Bool
  | color | mode | angle | config => true
  | _ => false

end Switch

/-- What has been read in one place. -/
structure Given where
  options : Options := {}
  steps : Bool := false
  /-- An option with a value that has not been looked at. -/
  waiting : Option (Switch × String) := none
  /-- The arguments that are no options, in reading order. -/
  words : List String := []
  deriving DecidableEq, Repr

namespace Given

/-- An option that is not set is set to the value that a text names. -/
def assign {α : Type} (s : Switch) (current : Option α) (value : String)
    (ofName? : String → Option α) (store : α → Options) (g : Given) : Except Halt Given :=
  match ofName? value, current with
  | none, _ => .error (.usage (.invalidValue s.name value))
  | some _, some _ => .error (.usage (.repeatedOption s.name))
  | some a, none => .ok { g with options := store a }

/-- An option with a value. -/
def withValue (g : Given) (s : Switch) (value : String) : Except Halt Given :=
  let o := g.options
  match s with
  | .color => g.assign s o.color value ColorChoice.ofName? fun c => { o with color := some c }
  | .mode => g.assign s o.mode value Mode.ofName? fun m => { o with mode := some m }
  | .angle => g.assign s o.angleUnit value AngleUnit.ofArgument? fun u => { o with angleUnit := some u }
  | .config =>
    g.assign s o.config value (fun path => if path.isEmpty then none else some path) fun path =>
      { o with config := some path }
  | _ => .error (.usage (.unexpectedValue s.name value))

/-- The value that has not been looked at counts from now on. -/
def settle (g : Given) : Except Halt Given :=
  match g.waiting with
  | some (s, value) => { g with waiting := none }.withValue s value
  | none => .ok g

/-- An option without a value. -/
def withFlag (g : Given) (place : Place) (s : Switch) : Except Halt Given :=
  match s with
  | .help => .error (.help place)
  | .version => .error (.version place)
  | .verbose =>
    .ok { g with options := { g.options with verbosity := some (g.options.verbosity.getD 0 + 1) } }
  | .json =>
    if g.options.json then .error (.usage (.repeatedOption s.name))
    else .ok { g with options := { g.options with json := true } }
  | .steps =>
    if g.steps then .error (.usage (.repeatedOption s.name)) else .ok { g with steps := true }
  | _ => .error (.usage (.missingValue s.name))

end Given

/-! ## Arguments -/

/-- What an argument is. -/
inductive Argument where
  /-- A long option, with a value if one is joined to it. -/
  | long (name : String) (value : Option String)
  /-- Short options. -/
  | short (letters : List Char)
  /-- The end of the options. -/
  | endOfOptions
  | word (text : String)
  deriving DecidableEq, Repr

/-- What an argument is. A dash alone is a word. -/
def Argument.ofString (argument : String) : Argument :=
  match argument.toList with
  | ['-', '-'] => .endOfOptions
  | '-' :: '-' :: cs =>
    let name := cs.takeWhile (· ≠ '=')
    let value :=
      match cs.dropWhile (· ≠ '=') with
      | _ :: value => some (String.ofList value)
      | [] => none
    .long (String.ofList name) value
  | '-' :: c :: cs => .short (c :: cs)
  | _ => .word argument

/-- Short options end with the one that takes a value; it is joined to it, with or
without `=`, unless nothing is left. -/
def lettersNeedValue : List Char → Bool
  | [] => false
  | c :: cs =>
    match Switch.ofShort? c with
    | some s => if s.takesValue then cs.isEmpty else lettersNeedValue cs
    | none => false

/-- The value of an option is the next argument. -/
def Argument.needsValue (place : Place) : Argument → Bool
  | .long name none => ((Switch.ofLong? place name).map Switch.takesValue).getD false
  | .short letters => lettersNeedValue letters
  | _ => false

/-- Short options, with the next argument for one that needs it. -/
def readLetters (place : Place) (next : Option String) (g : Given) : List Char → Except Halt Given
  | [] => .ok g
  | c :: cs =>
    match Switch.ofShort? c with
    | none => .error (.usage (.unknownOption (String.singleton c)))
    | some s => do
      let g ← g.settle
      if s.takesValue then
        match cs, next with
        | [], none => .error (.usage (.missingValue s.name))
        | [], some value => .ok { g with waiting := some (s, value) }
        | '=' :: value, _ => g.withValue s (String.ofList value)
        | value, _ => g.withValue s (String.ofList value)
      else readLetters place next (← g.withFlag place s) cs

/-- A long option, with the next argument if it needs it. -/
def readLong (place : Place) (next : Option String) (g : Given) (name : String)
    (value : Option String) : Except Halt Given :=
  match Switch.ofLong? place name with
  | none => .error (.usage (.unknownOption name))
  | some s => do
    let g ← g.settle
    match value, next with
    | some value, _ => g.withValue s value
    | none, some value => .ok { g with waiting := some (s, value) }
    | none, none => g.withFlag place s

/-- A word behind a command, which is a key for the command that takes keys. -/
def readWord (place : Place) (g : Given) (word : String) : Except Halt Given :=
  if place = .run then do
    let g ← g.settle
    return { g with words := g.words ++ [word] }
  else .error (.usage (.unexpectedArgument word))

/-- An option of one place. -/
def readOption (place : Place) (next : Option String) (g : Given) : Argument → Except Halt Given
  | .long name value => readLong place next g name value
  | .short letters => readLetters place next g letters
  | .endOfOptions => .ok g
  | .word text => readWord place g text

/-- The next argument as the value of an option, unless it looks like one itself. -/
def valueOf? (argument : String) : Option String :=
  match Argument.ofString argument with
  | .word text => some text
  | _ => none

/-- The options of one place, up to the first word in front of the command, and what
is left of the arguments. -/
def readArguments (place : Place) (g : Given) : List String → Except Halt (Given × List String)
  | [] => .ok (g, [])
  | argument :: rest =>
    match Argument.ofString argument with
    | .endOfOptions => do return (← rest.foldlM (readWord place) g, [])
    | .word text =>
      if place = .front then .ok (g, argument :: rest)
      else do readArguments place (← readWord place g text) rest
    | item =>
      if item.needsValue place then
        match rest with
        | [] => do return (← readOption place none g item, [])
        | next :: rest => do
          match valueOf? next with
          | some value => readArguments place (← readOption place (some value) g item) rest
          | none => readArguments place (← readOption place none g item) (next :: rest)
      else do readArguments place (← readOption place none g item) rest

/-! ## Command lines -/

/-- The request for help on a command. -/
def readHelp : List String → Halt
  | [] => .help .front
  | ["help"] => .help .front
  | [name] =>
    match Place.ofCommand? name with
    | some place => .help place
    | none => .usage (.unknownCommand name)
  | _ :: argument :: _ => .usage (.unexpectedArgument argument)

/-- The command of a place, with what has been read behind it. -/
def commandOf (place : Place) (g : Given) : Except Halt Command :=
  match place with
  | .front => .error (.usage .missingCommand)
  | .run => if g.words = [] then .error (.usage .missingKeys) else .ok (.run g.words g.steps)
  | .repl => .ok .repl
  | .keypad => .ok .keypad

/-- The command that arguments ask for. -/
def Invocation.ofArguments (arguments : List String) : Except Halt Invocation := do
  let (outer, rest) ← readArguments .front {} arguments
  match rest with
  | [] => .error (.usage .missingCommand)
  | "help" :: rest => .error (readHelp rest)
  | name :: rest =>
    match Place.ofCommand? name with
    | none => .error (.usage (.unknownCommand name))
    | some place => do
      let (inner, _) ← readArguments place {} rest
      let inner ← inner.settle
      let outer ← outer.settle
      return ⟨inner.options.over outer.options, ← commandOf place inner⟩

end PocketCalc
