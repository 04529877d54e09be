import PocketCalc.Decimal.Exponential

/-!
# Notations out of partial operations

The texts of `Scientific.standard` and `Scientific.exponential`, put together step by step
from operations that have a range. A count is a word of 64 bits and an exponent a signed
word of 32; a list has no entry behind its end and is not split there; a text is not repeated
a negative number of times. Outside its range an operation has no result but a `Fault`.

Allocation is left out. A list is lengthened to any count that is a word, while a machine
refuses more entries than a signed word of 64 bits counts, and in practice far fewer. So a
result says that these ranges are kept, not that there is room for it.

* `Fault` — the ranges that can be left.
* `Scientific.standardChecked`, `Scientific.exponentialChecked` — the two notations.
-/

namespace PocketCalc.Decimal

/-- The range that was left. -/
inductive Fault where
  /-- A count has more than 64 bits. -/
  | count
  /-- An exponent has more than 32 bits. -/
  | exponent
  /-- A list ends before the position where it is read or split. -/
  | position
  /-- A text is repeated a negative number of times. -/
  | repetition
  deriving DecidableEq, Repr

/-- The result of operations that have a range. -/
abbrev Checked := Except Fault

/-! ## Operations -/

/-- A count as an unsigned word. -/
def countWord (n : Nat) : Checked Nat :=
  if n < Nat.pow 2 64 then .ok n else .error .count

/-- A number as a signed word, which exponents and the counts taken from them are. -/
def exponentWord (e : Int) : Checked Int :=
  if -(Nat.pow 2 31 : Nat) ≤ e ∧ e < (Nat.pow 2 31 : Nat) then .ok e else .error .exponent

/-- The entry with `i` others in front of it. -/
def entry (ds : List Digit) (i : Nat) : Checked Digit :=
  match ds[i]? with
  | some d => .ok d
  | none => .error .position

/-- The first `n` entries and the others. -/
def splitFront (ds : List Digit) (n : Nat) : Checked (List Digit × List Digit) :=
  if n ≤ ds.length then .ok (ds.take n, ds.drop n) else .error .position

/-- A zero repeated. -/
def zerosChecked (n : Int) : Checked (List Char) := do
  let n ← exponentWord n
  if 0 ≤ n then return zeros n.toNat else throw .repetition

/-- A mantissa: the first digit is split off and the others are written behind the point. -/
def mantissaChecked (ds : List Digit) : Checked (List Char) := do
  let (lead, rest) ← splitFront ds 1
  return mantissa (lead ++ rest)

/-- A signed exponent. Its magnitude is a signed word too. -/
def exponentText (e : Int) : Checked (List Char) := do
  let e ← exponentWord e
  let _ ← exponentWord e.natAbs
  return signedExponent e

/-! ## Notations -/

/-- The four layouts of a number other than zero: a whole number, a point between the digits,
zeros behind the point, an exponent. The point stands after the first `point` of the
`length` digits. -/
def layoutChecked (ds : List Digit) (length point : Int) : Checked (List Char) :=
  if length ≤ point ∧ point ≤ 21 then do
    let padding ← zerosChecked (point - length)
    return spell ds ++ padding
  else if 0 < point ∧ point ≤ 21 then do
    let (whole, fraction) ← splitFront ds point.toNat
    return spell whole ++ '.' :: spell fraction
  else if -6 < point ∧ point ≤ 0 then do
    let padding ← zerosChecked (-point)
    return '0' :: '.' :: padding ++ spell ds
  else do
    let body ← mantissaChecked ds
    let exponent ← exponentText (point - 1)
    return body ++ 'e' :: exponent

/-- Exactly `wanted` digits and their exponent: zeros behind too few of them, or the first ones,
with one unit more where the next digit is five or above. The room for the zeros is taken for
granted, however many are wanted. -/
def roundDigitsChecked (ds : List Digit) (exponent : Int) (wanted : Nat) :
    Checked (List Digit × Int) :=
  if wanted < ds.length then do
    let next ← entry ds wanted
    if next < 5 then return (ds.take wanted, exponent)
    else
      match increment (ds.take wanted) with
      | (false, kept) => return (kept, exponent)
      | (true, kept) => do
        let exponent ← exponentWord (exponent + 1)
        return ((1 :: kept).take wanted, exponent)
  else return (ds ++ List.replicate (wanted - ds.length) 0, exponent)

namespace Scientific

/-- The text of `Scientific.standard`. -/
def standardChecked (s : Scientific) : Checked (List Char) :=
  if s.isZero then return ['0']
  else do
    let length ← exponentWord s.digits.length
    let point ← exponentWord (s.exponent + 1)
    let body ← layoutChecked s.digits length point
    return signed s.negative body

/-- The text of `Scientific.exponential`. The count of its digits has to be a word, but not one
that a machine has room for. -/
def exponentialChecked (s : Scientific) (places : Nat) : Checked (List Char) := do
  let wanted ← countWord (places + 1)
  let (ds, exponent) ← roundDigitsChecked s.digits s.exponent wanted
  let body ← mantissaChecked ds
  let exponent ← exponentText exponent
  return signed s.isNegative (body ++ 'e' :: exponent)

end Scientific

end PocketCalc.Decimal
