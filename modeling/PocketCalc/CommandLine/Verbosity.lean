/-!
# Verbosity

How much is reported beside the output: the more often the option is given, the
more.
-/

namespace PocketCalc

/-- How much is reported. -/
inductive Verbosity where
  /-- Warnings only. -/
  | normal
  /-- Also the status line. -/
  | verbose
  /-- Also every key. -/
  | debug
  /-- Also every step of a calculation. -/
  | trace
  deriving DecidableEq, Repr

namespace Verbosity

/-- The verbosity of an option that is given `count` times. -/
def ofCount : Nat → Verbosity
  | 0 => normal
  | 1 => verbose
  | 2 => debug
  | _ => trace

/-- More than warnings is reported. -/
def isVerbose (v : Verbosity) : Bool :=
  v != normal

/-- The name of a verbosity. -/
def name : Verbosity → String
  | normal => "Normal"
  | verbose => "Verbose"
  | debug => "Debug"
  | trace => "Trace"

/-- The least severe messages that are reported. -/
def filter : Verbosity → String
  | normal => "warn"
  | verbose => "info"
  | debug => "debug"
  | trace => "trace"

end Verbosity

end PocketCalc
