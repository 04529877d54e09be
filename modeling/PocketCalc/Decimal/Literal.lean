import PocketCalc.Decimal.Digit

/-!
# Number literals

The texts that stand for a number:

* an optional sign, digits with at most one point among them and at least one
  digit in all, and optionally `e` or `E` with a signed whole exponent;
* an optional sign and `inf`, `infinity` or `nan` in any mixture of cases.

Nothing else is a literal: no spaces, no separators, not the empty text.

* `Literal.parse?` — the reading of the text.
* `Literal.toFloat` — the nearest floating-point value, a half to the even one.
-/

namespace PocketCalc.Decimal

inductive Literal where
  /-- `± whole.fraction · 10^exponent`. -/
  | number (negative : Bool) (whole fraction : List Digit) (exponent : Int)
  | infinite (negative : Bool)
  | notANumber
  deriving DecidableEq, Repr

/-! ## Parts of a literal -/

/-- The digits at the front of a text, and the rest. -/
def takeDigits : List Char → List Digit × List Char
  | [] => ([], [])
  | c :: cs =>
    match Digit.ofChar? c with
    | some d => (d :: (takeDigits cs).1, (takeDigits cs).2)
    | none => ([], c :: cs)

/-- Nothing is lost: digits and rest make up the text. -/
theorem spell_takeDigits (cs : List Char) : spell (takeDigits cs).1 ++ (takeDigits cs).2 = cs := by
  induction cs with
  | nil => rfl
  | cons c cs ih =>
    unfold takeDigits
    split
    · next d h =>
      have hc : d.toChar = c := by
        unfold Digit.ofChar? at h
        split at h
        · next hr =>
          obtain rfl := Option.some.inj h
          simp only [Digit.toChar]
          rw [Nat.add_sub_cancel' hr.1]
          exact Char.ofNat_toNat c
        · simp at h
      simp [spell, hc] at ih ⊢
      exact ih
    · rfl

/-- An optional sign at the front: whether it is a minus, and the rest. -/
def takeSign : List Char → Bool × List Char
  | '-' :: cs => (true, cs)
  | '+' :: cs => (false, cs)
  | cs => (false, cs)

/-- Digits to the end of the text, at least one. -/
def wholeDigits? (cs : List Char) : Option (List Digit) :=
  match takeDigits cs with
  | ([], _) => none
  | (ds, []) => some ds
  | _ => none

/-- The exponent that the rest of a literal spells: none at all is zero. -/
def exponent? : List Char → Option Int
  | [] => some 0
  | c :: cs =>
    if c = 'e' ∨ c = 'E' then
      let (negative, rest) := takeSign cs
      (wholeDigits? rest).map fun ds =>
        if negative then -(numeralValue ds : Int) else (numeralValue ds : Int)
    else none

/-- Digits behind a point, if there is one, and the rest. -/
def takeFraction : List Char → List Digit × List Char
  | '.' :: cs => takeDigits cs
  | cs => ([], cs)

/-- The text in lower case, ASCII letters only. -/
def lowered (cs : List Char) : List Char :=
  cs.map Char.toLower

namespace Literal

/-- Reads a literal without its sign. -/
def parseUnsigned? (negative : Bool) (cs : List Char) : Option Literal :=
  if lowered cs = "inf".toList ∨ lowered cs = "infinity".toList then some (.infinite negative)
  else if lowered cs = "nan".toList then some .notANumber
  else
    let (whole, rest) := takeDigits cs
    let (fraction, rest) := takeFraction rest
    if whole = [] ∧ fraction = [] then none
    else (exponent? rest).map fun e => .number negative whole fraction e

def parse? (cs : List Char) : Option Literal :=
  let (negative, rest) := takeSign cs
  parseUnsigned? negative rest

/-- The floating-point value nearest to `m · 10^e`, infinite when out of range. -/
def nearest (m : Nat) (e : Int) : Float :=
  Float.ofScientific m (e < 0) e.natAbs

/-- A floating-point value with its sign turned if `negative`. -/
def applySign (negative : Bool) (x : Float) : Float :=
  if negative then -x else x

def toFloat : Literal → Float
  | number negative whole fraction e =>
    applySign negative (nearest (numeralValue (whole ++ fraction)) (e - (fraction.length : Int)))
  | infinite negative => applySign negative (Float.ofBits 0x7FF0000000000000)
  | notANumber => Float.ofBits 0x7FF8000000000000

end Literal

/-- The floating-point value that a text spells. -/
def readFloat? (cs : List Char) : Option Float :=
  (Literal.parse? cs).map Literal.toFloat

end PocketCalc.Decimal
