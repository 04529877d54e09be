/-!
# Decimal digits

A digit is a number below ten, a numeral is a list of digits with the most
significant first.

* `Digit.toChar` / `Digit.ofChar?` — the ASCII spelling of a digit; reading
  what was written gives the digit back (`Digit.ofChar?_toChar`).
* `numeralValue` — the number a list of digits stands for.
* `numeral` — the digits of a number.
-/

namespace PocketCalc.Decimal

abbrev Digit := Fin 10

/-- Numerals below ten are digits. The zero is spelled out so that they are the same
terms whatever else is imported. -/
instance neZero_ten : @NeZero Nat (@Zero.ofOfNat0 Nat (instOfNatNat 0)) 10 := ⟨by decide⟩

/-! ## Spelling -/

/-- The ASCII character of a digit. -/
def Digit.toChar (d : Digit) : Char :=
  Char.ofNat (48 + d.val)

/-- The digit that an ASCII character spells. -/
def Digit.ofChar? (c : Char) : Option Digit :=
  if h : 48 ≤ c.toNat ∧ c.toNat < 58 then some ⟨c.toNat - 48, by omega⟩ else none

/-- A written digit reads back as itself. -/
@[simp] theorem Digit.ofChar?_toChar (d : Digit) : Digit.ofChar? d.toChar = some d := by
  revert d; decide

/-- Exactly the ASCII digits are read. -/
theorem Digit.isSome_ofChar? (c : Char) :
    (Digit.ofChar? c).isSome = (48 ≤ c.toNat && c.toNat < 58) := by
  unfold Digit.ofChar?
  split <;> simp_all

def spell (ds : List Digit) : List Char :=
  ds.map Digit.toChar

/-! ## Value -/

/-- The number that a list of digits stands for. -/
def numeralValue (ds : List Digit) : Nat :=
  ds.foldl (fun n d => 10 * n + d.val) 0

@[simp] theorem numeralValue_nil : numeralValue [] = 0 := rfl

/-! ## Digits of a number -/

/-- The digits of `n` in front of `tail`. Every step divides by ten, so the bit
length of `n` bounds the number of steps. -/
def numeralOnto : Nat → Nat → List Digit → List Digit
  | 0, n, tail => Fin.ofNat 10 n :: tail
  | fuel + 1, n, tail =>
    if n < 10 then Fin.ofNat 10 n :: tail
    else numeralOnto fuel (n / 10) (Fin.ofNat 10 n :: tail)

/-- The decimal digits of a number; zero has the one digit `0`. -/
def numeral (n : Nat) : List Digit :=
  numeralOnto n.log2 n []

def natText (n : Nat) : List Char :=
  spell (numeral n)

end PocketCalc.Decimal
