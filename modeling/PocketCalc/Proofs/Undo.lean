import PocketCalc.Proofs.Typing

/-!
# Backspace undoes a key

Where a key adds one thing, a character to the number being typed or a token behind the others,
backspace takes it off again and the state is what it was. What erasing repairs is not needed
here: without the new character the buffer is the text of a number, as it was (`IsEditable`).
And an opening paren is not taken for the paren of a function, since no function ever stands
without its own.

* `Sound.backspace_type` — a character comes off the buffer.
* `Sound.backspace_push`, `backspace_function` — a token comes off the entry.
* `Adds` — the keys that add one thing, and where they do.
* `backspace_undoes_key` — **backspace restores the state.**
-/

namespace PocketCalc

/-- A text that may be edited needs no repair. -/
theorem IsEditable.repair_eq {text : List Char} (h : IsEditable text) : repair text = text := by
  rcases h with rfl | hdraft
  · rfl
  · exact hdraft.repair_eq

namespace Calculator

variable {c : Calculator}

/-! ## What comes off -/

/-- **A character that was typed comes off the buffer.** -/
theorem Sound.backspace_type (h : Sound c) (hfresh : c.isResult = false) (ch : Char) :
    (c.type [ch]).backspace = (.updated, c) := by
  have herase : erase (c.buffer ++ [ch]) = c.buffer := by
    rw [erase, List.dropLast_concat]
    exact h.editable.repair_eq
  unfold Calculator.backspace
  rw [if_neg (by simpa [Calculator.type] using hfresh), if_pos (by simp [Calculator.type])]
  show (_, { c with buffer := erase (c.buffer ++ [ch]) }) = _
  rw [herase]

/-- **A token that was put on comes off the entry**, unless it is a number, which is opened
again. -/
theorem Sound.backspace_push (h : Sound c) (hbuffer : c.buffer = []) (hfresh : c.isResult = false)
    {t : Token} (ht : ∀ literal, t ≠ .number literal) : (c.push t).backspace = (.updated, c) := by
  unfold Calculator.backspace
  rw [if_neg (by simpa [push] using hfresh), if_neg (by simpa [push] using hbuffer)]
  split
  · next hnil => cases hnil
  · next f rest hentered =>
    -- a function is never without its paren
    obtain ⟨_, hfunction⟩ := List.cons.inj hentered
    obtain ⟨d, hd⟩ := h.entered
    cases hd.head_not_function (.function f) (by rw [hfunction]; rfl)
  · next literal rest hentered => exact absurd (List.cons.inj hentered).1 (ht literal)
  · next rest _ _ hentered =>
    obtain ⟨_, rfl⟩ := List.cons.inj hentered
    rfl

/-- A function goes with its paren. -/
theorem backspace_function (hbuffer : c.buffer = []) (hfresh : c.isResult = false) (f : Func) :
    ((c.push (.function f)).push .openParen).backspace = (.updated, c) := by
  unfold backspace
  rw [if_neg (by simpa [push] using hfresh), if_neg (by simpa [push] using hbuffer)]
  rfl

/-! ## Keys that add one thing -/

/-- A key that adds a character to the number being typed, or a token, or a function with its
paren, and nothing besides. -/
inductive Adds (c : Calculator) : Event → Prop
  | digit {d : UInt8} : (c.apply (.digit d)).1 = .updated →
      c.buffer ≠ [] ∨ c.lastEndsValue = false → Adds c (.digit d)
  | decimalPoint : (c.apply .decimalPoint).1 = .updated → c.buffer ≠ [] → Adds c .decimalPoint
  | function (f : Func) : c.buffer = [] → c.lastEndsValue = false → Adds c (.function f)
  | constant (k : Constant) : c.buffer = [] → c.lastEndsValue = false → Adds c (.constant k)
  | openParen : c.buffer = [] → c.lastEndsValue = false → Adds c .openParen
  | closeParen : (c.apply .closeParen).1 = .updated → c.buffer = [] → Adds c .closeParen
  | operator (op : Operator) : c.buffer = [] → c.lastEndsValue = true → Adds c (.operator op)

/-- An accepted digit is a character behind the others. -/
theorem apply_digit_of_accepted (hfresh : c.isResult = false) {d : UInt8}
    (haccepted : (c.apply (.digit d)).1 = .updated)
    (hroom : c.buffer ≠ [] ∨ c.lastEndsValue = false) :
    ∃ ch, c.apply (.digit d) = (.updated, c.type [ch]) := by
  by_cases hd : d.toNat < 10
  · by_cases hlimit : digitCount c.buffer < c.settings.digitLimit
    · refine ⟨Decimal.Digit.toChar ⟨d.toNat, hd⟩, ?_⟩
      rw [Calculator.apply, dif_pos hd, digit_of_fresh hfresh hlimit, beforeNumber_of_room hroom]
    · -- the number being typed is full
      have hfull : c.settings.digitLimit ≤ digitCount c.openNumber := by
        simpa [openNumber, hfresh] using hlimit
      rw [apply_digit_of_full hd hfull] at haccepted
      cases haccepted
  · rw [Calculator.apply, dif_neg hd] at haccepted
    cases haccepted

/-- An accepted point behind digits is a character, too. -/
theorem apply_decimalPoint_of_accepted (hfresh : c.isResult = false)
    (haccepted : (c.apply .decimalPoint).1 = .updated) (hbuffer : c.buffer ≠ []) :
    c.apply .decimalPoint = (.updated, c.type ['.']) := by
  cases hwhole : c.buffer.contains '.' || c.buffer.contains 'e' with
  | false => exact decimalPoint_of_fresh hfresh hbuffer hwhole
  | true =>
      rw [Calculator.apply, decimalPoint, hwhole, hfresh] at haccepted
      cases haccepted

/-- **Backspace undoes a key.** In a reachable state that shows no result, a key that adds one
thing to the entry is accepted, and backspace behind it is accepted and restores the state in
every field. -/
theorem backspace_undoes_key (settings : Settings) (before : List Event)
    (hfresh : ((new settings).run before).isResult = false) {e : Event}
    (he : ((new settings).run before).Adds e) :
    let s := (new settings).run before
    (s.apply e).1 = .updated ∧ (s.apply e).2.apply .backspace = (.updated, s) := by
  intro s
  have hsound : Sound s := sound_run settings before
  cases he with
  | digit haccepted hroom =>
      obtain ⟨ch, heq⟩ := apply_digit_of_accepted hfresh haccepted hroom
      rw [heq]
      exact ⟨rfl, hsound.backspace_type hfresh ch⟩
  | decimalPoint haccepted hbuffer =>
      rw [apply_decimalPoint_of_accepted hfresh haccepted hbuffer]
      exact ⟨rfl, hsound.backspace_type hfresh '.'⟩
  | function f hbuffer hends =>
      have hready : Ready s := ⟨hbuffer, hends, hfresh⟩
      rw [Calculator.apply, function, hready.beforeValue]
      exact ⟨rfl, backspace_function hbuffer hfresh f⟩
  | constant k hbuffer hends =>
      have hready : Ready s := ⟨hbuffer, hends, hfresh⟩
      rw [Calculator.apply, constant, hready.beforeValue]
      exact ⟨rfl, hsound.backspace_push hbuffer hfresh (by simp)⟩
  | openParen hbuffer hends =>
      have hready : Ready s := ⟨hbuffer, hends, hfresh⟩
      rw [Calculator.apply, openParen, hready.beforeValue]
      exact ⟨rfl, hsound.backspace_push hbuffer hfresh (by simp)⟩
  | closeParen haccepted hbuffer =>
      rw [Calculator.apply, closeParen] at haccepted ⊢
      split at haccepted
      · next hclose =>
        rw [if_pos hclose, settle_of_committed hbuffer hfresh]
        exact ⟨rfl, hsound.backspace_push hbuffer hfresh (by simp)⟩
      · cases haccepted
  | operator op hbuffer hends =>
      have hsettle : s.settle = s := settle_of_committed hbuffer hfresh
      have hvalue : s.hasValue = true := by
        rw [hasValue, Bool.or_eq_true]
        exact .inr hends
      have hsettled : s.settle.lastEndsValue = true := by rwa [hsettle]
      rw [Calculator.apply, operator_of_hasValue hvalue hsettled, hsettle]
      exact ⟨rfl, hsound.backspace_push hbuffer hfresh (by simp)⟩

/-- It applies to a digit behind `(2`, and to a closing paren and a power behind `sin(π`. -/
theorem backspace_undoes_keys_of_group :
    let s := (new {}).run [.openParen, .digit 2]
    let t := (new {}).run [.function .sin, .constant .pi]
    (s.isResult = false ∧ s.Adds (.digit 7) ∧
        (s.apply (.digit 7)).2.apply .backspace = (.updated, s)) ∧
      t.isResult = false ∧
      (t.Adds .closeParen ∧ (t.apply .closeParen).2.apply .backspace = (.updated, t)) ∧
      (t.Adds (.operator .power) ∧
        (t.apply (.operator .power)).2.apply .backspace = (.updated, t)) := by
  intro s t
  have hs : s.isResult = false := rfl
  have ht : t.isResult = false := rfl
  have hdigit : s.Adds (.digit 7) := .digit rfl (.inl nofun)
  have hclose : t.Adds .closeParen := .closeParen rfl rfl
  have hpower : t.Adds (.operator .power) := .operator .power rfl rfl
  refine ⟨⟨hs, hdigit, ?_⟩, ht, ⟨hclose, ?_⟩, ⟨hpower, ?_⟩⟩
  · exact (backspace_undoes_key {} _ hs hdigit).2
  · exact (backspace_undoes_key {} _ ht hclose).2
  · exact (backspace_undoes_key {} _ ht hpower).2

end Calculator

end PocketCalc
