import PocketCalc.Proofs.Typing

/-!
# The multiplication that need not be typed

A value that follows a value is multiplied with it. Entry puts the `×` in by itself, at
different moments for a number that is typed and for a value that is put behind the others, and
the key `×` has rules of its own. They agree: behind a complete value the key does what entry
does to make room for a value (`Sound.operator_multiply`), and making room a second time changes
nothing (`Sound.ready_beforeValue`). The keys that begin a value look at nothing but that room.

* `apply_of_beforeValue_eq` — keys that put a value behind the others.
* `digit_of_committed`, `decimalPoint_of_committed` — the first character of a number.
* `implicit_multiplication_is_the_key` — **a key that begins a value does the same with and
  without the key `×` in front of it.**
-/

namespace PocketCalc

/-- The keys that put the beginning of a value behind the committed tokens. -/
def Event.putsValue : Event → Bool
  | .constant _ | .function _ | .openParen | .exponential => true
  | _ => false

namespace Calculator

variable {c : Calculator}

/-! ## Making room -/

/-- **Behind a complete value the key `×` makes room for a value.** -/
theorem Sound.operator_multiply (h : Sound c) (hvalue : c.hasValue = true) :
    c.operator .multiply = (.updated, c.beforeValue) := by
  have hends := h.settle_lastEndsValue.trans hvalue
  rw [operator_of_hasValue hvalue hends, Calculator.beforeValue, Calculator.implicitMultiply,
    if_pos hends]

/-- Where room has been made a value may begin. -/
theorem Sound.ready_beforeValue (h : Sound c) : Ready c.beforeValue where
  committed := h.beforeValue.2.1
  room := by
    obtain ⟨⟨d, hd⟩, _, _⟩ := h.beforeValue
    exact lastEndsValue_of_entered hd
  fresh := by
    obtain ⟨ts, hts⟩ := c.beforeValue_eq
    rw [hts, buildOn_eq]

theorem beforeValue_settings (c : Calculator) : c.beforeValue.settings = c.settings := by
  obtain ⟨ts, hts⟩ := c.beforeValue_eq
  rw [hts, buildOn_eq]

/-! ## Keys behind it -/

/-- What puts a value behind the others does the same where it finds the same room. -/
theorem apply_of_beforeValue_eq {a b : Calculator} (h : a.beforeValue = b.beforeValue) {e : Event}
    (he : e.putsValue = true) : a.apply e = b.apply e := by
  cases e with
  | constant k => simp only [Calculator.apply, constant, h]
  | function f => simp only [Calculator.apply, function, h]
  | openParen => simp only [Calculator.apply, openParen, h]
  | exponential => simp only [Calculator.apply, exponential, h]
  | _ => cases he

/-- Where everything is committed a number needs the same room as any value. -/
theorem beforeNumber_of_committed (hbuffer : c.buffer = []) (hfresh : c.isResult = false) :
    c.beforeNumber = c.beforeValue := by
  rw [beforeValue, settle_of_committed hbuffer hfresh, beforeNumber, hbuffer]
  rfl

/-- The first digit of a number. -/
theorem digit_of_committed (hbuffer : c.buffer = []) (hfresh : c.isResult = false)
    (hlimit : 1 ≤ c.settings.digitLimit) (d : Decimal.Digit) :
    c.digit d = (.updated, c.beforeValue.type [d.toChar]) := by
  rw [digit_of_fresh hfresh (by rw [hbuffer]; exact hlimit),
    beforeNumber_of_committed hbuffer hfresh]

/-- A point in front of all digits. -/
theorem decimalPoint_of_committed (hbuffer : c.buffer = []) (hfresh : c.isResult = false) :
    c.decimalPoint = (.updated, c.beforeValue.type ['0', '.']) := by
  rw [← beforeNumber_of_committed hbuffer hfresh]
  simp [decimalPoint, startFresh_of_fresh hfresh, hbuffer]

/-! ## With and without the key -/

/-- **The multiplication that need not be typed is the one that can be.** In a reachable state a
value is complete: a number is being typed, or the last token is a number, a constant or a
closing paren. A constant, a function, an opening paren and `eˣ` then do exactly what they do
behind the key `×`. So do the point and, if any digit is allowed, the digits, where nothing is
being typed and no result is shown. -/
theorem implicit_multiplication_is_the_key (settings : Settings) (before : List Event)
    (hvalue : ((new settings).run before).buffer ≠ [] ∨
      ∃ t, ((new settings).run before).tokens.getLast? = some t ∧ t.endsValue = true) :
    let s := (new settings).run before
    let product := s.run [.operator .multiply]
    (∀ e, e.putsValue = true → s.apply e = product.apply e) ∧
      (s.buffer = [] → s.isResult = false →
        (1 ≤ settings.digitLimit → ∀ d : UInt8, d.toNat < 10 →
          s.apply (.digit d) = product.apply (.digit d)) ∧
        s.apply .decimalPoint = product.apply .decimalPoint) := by
  intro s product
  have hsound : Sound s := sound_run settings before
  have hproduct : product = s.beforeValue :=
    congrArg Prod.snd (hsound.operator_multiply (hasValue_iff.mpr hvalue))
  have hready : Ready s.beforeValue := hsound.ready_beforeValue
  rw [hproduct]
  refine ⟨?_, ?_⟩
  · intro e he
    exact apply_of_beforeValue_eq hready.beforeValue.symm he
  · intro hbuffer hfresh
    have hsettings : s.settings = settings := run_settings _ before
    refine ⟨?_, ?_⟩
    · intro hlimit d hd
      rw [← hsettings] at hlimit
      have hlimit' : 1 ≤ s.beforeValue.settings.digitLimit := by
        rw [s.beforeValue_settings]
        exact hlimit
      rw [Calculator.apply, Calculator.apply, dif_pos hd, dif_pos hd,
        digit_of_committed hbuffer hfresh hlimit,
        digit_of_committed hready.committed hready.fresh hlimit', hready.beforeValue]
    · rw [Calculator.apply, Calculator.apply, decimalPoint_of_committed hbuffer hfresh,
        decimalPoint_of_committed hready.committed hready.fresh, hready.beforeValue]

/-- It applies behind `2+3`, where `√` is multiplied with the number being typed, and behind
`(π)`, where a digit begins a number. -/
theorem implicit_multiplication_of_root_and_digit :
    let s := (new {}).run [.digit 2, .operator .add, .digit 3]
    let t := (new {}).run [.openParen, .constant .pi, .closeParen]
    (s.buffer ≠ [] ∧
        s.apply (.function .sqrt) = (s.run [.operator .multiply]).apply (.function .sqrt)) ∧
      t.tokens.getLast? = some .closeParen ∧ t.buffer = [] ∧ t.isResult = false ∧
        t.apply (.digit 7) = (t.run [.operator .multiply]).apply (.digit 7) := by
  intro s t
  have hs : s.buffer ≠ [] := nofun
  have hlast : t.tokens.getLast? = some .closeParen := rfl
  have hbuffer : t.buffer = [] := rfl
  have hfresh : t.isResult = false := rfl
  refine ⟨⟨hs, ?_⟩, hlast, hbuffer, hfresh, ?_⟩
  · exact (implicit_multiplication_is_the_key {} _ (.inl hs)).1 _ rfl
  · have htyping := (implicit_multiplication_is_the_key {} _ (.inr ⟨_, hlast, rfl⟩)).2
    exact (htyping hbuffer hfresh).1 (by decide) 7 (by decide)

end Calculator

end PocketCalc
