import PocketCalc.NumberFormat

/-!
# Settings of a calculator

The keypad mode, the unit of angles, the limit on typed digits, and the number
format. The mode decides the usual digit limit and whether there is an angle unit
to choose; both modes evaluate the same expressions.
-/

namespace PocketCalc

/-! ## Angle unit -/

/-- The unit in which sine, cosine and tangent take their argument. -/
inductive AngleUnit where
  | radians | degrees
  deriving DecidableEq, Repr

namespace AngleUnit

def name : AngleUnit → String
  | radians => "radians"
  | degrees => "degrees"

def ofName? : String → Option AngleUnit
  | "radians" => some radians
  | "degrees" => some degrees
  | _ => none

def toggled : AngleUnit → AngleUnit
  | radians => degrees
  | degrees => radians

/-- The short form on the status line. -/
def label : AngleUnit → String
  | radians => "RAD"
  | degrees => "DEG"

/-- One degree in radians, to the nearest floating-point number. -/
def degree : Float := 0.017453292519943295

/-- An angle in this unit, in radians. -/
def toRadians : AngleUnit → Float → Float
  | radians, x => x
  | degrees, x => x * degree

end AngleUnit

/-! ## Mode -/

/-- The keypad in use. -/
inductive Mode where
  /-- Four operations. -/
  | basic
  /-- Functions, constants and an angle unit besides. -/
  | scientific
  deriving DecidableEq, Repr

namespace Mode

def name : Mode → String
  | basic => "basic"
  | scientific => "scientific"

def ofName? : String → Option Mode
  | "basic" => some basic
  | "scientific" => some scientific
  | _ => none

/-- The usual limit on typed digits. -/
def digitLimit : Mode → Nat
  | basic => 12
  | scientific => 8

/-- Whether the angle unit can be chosen. -/
def hasAngleUnit : Mode → Bool
  | basic => false
  | scientific => true

end Mode

/-! ## Settings -/

structure Settings where
  mode : Mode := .scientific
  /-- The unit to start with. -/
  angleUnit : AngleUnit := .radians
  /-- A digit limit in place of the usual one of the mode. -/
  maxDigits : Option Nat := none
  format : NumberFormat := {}
  deriving DecidableEq, Repr

namespace Settings

/-- The limit on the digits of a typed number. -/
def digitLimit (s : Settings) : Nat :=
  s.maxDigits.getD s.mode.digitLimit

/-- The unit in use at the start: without a choice of units it is radians. -/
def startUnit (s : Settings) : AngleUnit :=
  if s.mode.hasAngleUnit then s.angleUnit else .radians

end Settings

end PocketCalc
