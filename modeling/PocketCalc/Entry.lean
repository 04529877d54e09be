import PocketCalc.Decimal.Notation
import PocketCalc.Token

/-!
# The number being typed

The entry buffer is the text of a number that is still being edited. It may be
incomplete: a point may stand at its end, and cutting characters off a number with
an exponent may leave a tail that spells nothing.

* `digitCount` — the digits in the buffer, which the digit limit counts.
* `repair` — the buffer without a tail that spells nothing.
* `cutToLimit` — characters off the end until the digits are within a limit.
* `pendingNumber?` — the number token that the buffer stands for.
-/

namespace PocketCalc

def digitCount (text : List Char) : Nat :=
  text.countP Char.isDigit

/-- A text without its last character if it ends in `tail`. -/
def dropLastAfter (tail text : List Char) : List Char :=
  if tail.isSuffixOf text then text.dropLast else text

/-- A number without a tail that spells nothing: an exponent mark with or without
a sign, and a sign alone. -/
def repair (text : List Char) : List Char :=
  let unsigned := dropLastAfter ['e', '-'] (dropLastAfter ['e', '+'] text)
  let unmarked := dropLastAfter ['e'] unsigned
  if unmarked = ['-'] then [] else unmarked

theorem length_dropLastAfter_le (tail text : List Char) :
    (dropLastAfter tail text).length ≤ text.length := by
  unfold dropLastAfter
  split <;> simp

theorem length_repair_le (text : List Char) : (repair text).length ≤ text.length := by
  have h1 := length_dropLastAfter_le ['e', '+'] text
  have h2 := length_dropLastAfter_le ['e', '-'] (dropLastAfter ['e', '+'] text)
  have h3 := length_dropLastAfter_le ['e']
    (dropLastAfter ['e', '-'] (dropLastAfter ['e', '+'] text))
  simp only [repair]
  split
  · simp
  · omega

/-- The text without its last character, repaired. -/
def erase (text : List Char) : List Char :=
  repair text.dropLast

theorem length_erase_lt {text : List Char} (h : text ≠ []) :
    (erase text).length < text.length := by
  have h1 := length_repair_le text.dropLast
  have h2 : text.length ≠ 0 := fun h0 => h (List.length_eq_zero_iff.1 h0)
  simp only [erase]
  rw [List.length_dropLast] at h1
  omega

/-- Characters come off the end until no more than `limit` digits are left. -/
def cutToLimit (limit : Nat) (text : List Char) : List Char :=
  if _h : limit < digitCount text then cutToLimit limit (erase text) else text
termination_by text.length
decreasing_by
  apply length_erase_lt
  rintro rfl
  simp [digitCount] at _h

/-- The number token of an entry buffer, if it spells a number. -/
def pendingNumber? (buffer : List Char) : Option Token :=
  let literal := Decimal.dropFinalPoints buffer
  if literal = [] ∨ literal = ['-'] then none else some (.number literal)

end PocketCalc
