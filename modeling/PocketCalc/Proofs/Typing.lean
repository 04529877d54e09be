import PocketCalc.Proofs.OperatorKeys

/-!
# Every expression can be typed

The keys of an expression are pressed one after the other. Entry rewrites what is
typed in many situations, and none of them arises here: each key is accepted and adds
exactly what it says.

Between two keys the latest number may be committed or still be in the buffer, so the
induction over the expression is on what committing would give. From a state that is
`Ready` for a value, typing a phrase leads to one that `Holds` it
(`Phrase.accepts`): committing puts the tokens of the phrase on top of those that were
there.

* `keys` — the keys of an expression.
* `Accepts` — runs in which every key is accepted.
* `typed_expression` — **the whole expression is entered unchanged, and equals gives
  its value or its error.**
-/

namespace PocketCalc

/-! ## Keys -/

/-- The key of a character of a number. -/
def keyOfChar (ch : Char) : Event :=
  match Decimal.Digit.ofChar? ch with
  | some d => .digit (UInt8.ofNat d.val)
  | none => .decimalPoint

/-- The keys of an expression: one for each character of a number, one for a function
with its paren, and one for every other token. -/
def keys : List Token → List Event
  | [] => []
  | .function f :: .openParen :: ts => .function f :: keys ts
  | .function f :: ts => .function f :: keys ts
  | .number literal :: ts => literal.map keyOfChar ++ keys ts
  | .operator op :: ts => .operator op :: keys ts
  | .constant k :: ts => .constant k :: keys ts
  | .openParen :: ts => .openParen :: keys ts
  | .closeParen :: ts => .closeParen :: keys ts

/-- The keys of a phrase stand in front of those of what follows. -/
theorem Phrase.keys_append {k : Category} {ts : List Token} (h : Phrase k ts) :
    ∀ rest, keys (ts ++ rest) = keys ts ++ keys rest := by
  induction h with
  | number literal => intro rest; simp [keys]
  | constant c => intro rest; simp [keys]
  | group _ ih => intro rest; simp [keys, ih]
  | application f _ ih => intro rest; simp [keys, ih]
  | single _ ih => exact ih
  | chain op _ _ ihp ihe => intro rest; simp [keys, ihp, ihe]

/-- A number as it can be typed: digits, or digits, a point and digits. -/
inductive Typable : List Char → Prop
  | whole {ds} : ds ≠ [] → (∀ ch ∈ ds, ch.isDigit = true) → Typable ds
  | fraction {ds fs} : ds ≠ [] → (∀ ch ∈ ds, ch.isDigit = true) →
      fs ≠ [] → (∀ ch ∈ fs, ch.isDigit = true) → Typable (ds ++ '.' :: fs)

theorem Typable.isComplete {literal : List Char} (h : Typable literal) :
    IsComplete literal := by
  have hwhole : ∀ {ds : List Char}, ds ≠ [] → (∀ ch ∈ ds, ch.isDigit = true) →
      stage? ds = some .whole := by
    intro ds hne hds
    refine Stage.after?_first_digits (fun ch hch => ?_) rfl hne hds
    simp [Stage.next?, hch, (ne_of_isDigit hch).2.1]
  cases h with
  | whole hne hds => exact ⟨.whole, hwhole hne hds, rfl⟩
  | fraction hne hds hne' hfs =>
      refine ⟨.fraction, ?_, rfl⟩
      have hpoint : Stage.whole.next? '.' = some .point := rfl
      rw [stage?, Stage.after?_append, ← stage?, hwhole hne hds, Option.bind_some,
        Stage.after?_cons, hpoint, Option.bind_some]
      exact Stage.after?_first_digits (fun ch hch => by simp [Stage.next?, hch]) rfl hne' hfs

namespace Calculator

/-! ## Accepted keys -/

/-- A run in which every key is accepted, with the states it starts and ends in. -/
inductive Accepts : Calculator → List Event → Calculator → Prop
  | done (c : Calculator) : Accepts c [] c
  | press {c next last e events} : c.apply e = (.updated, next) →
      Accepts next events last → Accepts c (e :: events) last

theorem Accepts.append {c mid last : Calculator} {as bs : List Event} (h : Accepts c as mid)
    (hrest : Accepts mid bs last) : Accepts c (as ++ bs) last := by
  induction h with
  | done c => exact hrest
  | press hkey _ ih => exact .press hkey (ih hrest)

/-- One key more. -/
theorem Accepts.concat {c mid last : Calculator} {events : List Event} {e : Event}
    (h : Accepts c events mid) (hkey : mid.apply e = (.updated, last)) :
    Accepts c (events ++ [e]) last :=
  h.append (.press hkey (.done last))

theorem Accepts.run {c last : Calculator} {events : List Event} (h : Accepts c events last) :
    c.run events = last := by
  induction h with
  | done c => rfl
  | press hkey _ ih => rw [Calculator.run, List.foldl_cons, hkey]; exact ih

theorem Accepts.outcomes {c last : Calculator} {events : List Event}
    (h : Accepts c events last) : ∀ step ∈ c.trace events, step.2.1 = .updated := by
  induction h with
  | done c => simp [trace]
  | press hkey _ ih =>
      intro step hstep
      rw [trace, hkey] at hstep
      rcases List.mem_cons.mp hstep with rfl | hstep
      · rfl
      · exact ih step hstep

/-! ## States between keys -/

/-- A value may be begun: everything is committed, and no value is complete. -/
structure Ready (c : Calculator) : Prop where
  committed : c.buffer = []
  room : c.lastEndsValue = false
  fresh : c.isResult = false

/-- Tokens with a complete value at their end have been typed on top of a state. -/
structure Holds (c : Calculator) (ts : List Token) (c' : Calculator) : Prop where
  commit_eq : c'.commit = { c with entered := ts.reverse ++ c.entered }
  complete : c'.hasValue = true
  fresh : c'.isResult = false

variable {c c' : Calculator} {ts : List Token}

theorem commit_angleUnit (c : Calculator) : c.commit.angleUnit = c.angleUnit := by
  unfold commit
  split <;> rfl

/-- In front of a value there is nothing to commit and nothing to multiply by. -/
theorem Ready.beforeValue (h : Ready c) : c.beforeValue = c := by
  rw [Calculator.beforeValue, settle_of_committed h.committed h.fresh, implicitMultiply, h.room]
  rfl

/-- Behind a token that ends a value nothing is left to commit. -/
theorem Ready.holds (h : Ready c) (front : List Token) {t : Token} (ht : t.endsValue = true) :
    Holds c (front ++ [t]) { c with entered := t :: front.reverse ++ c.entered } where
  commit_eq := by
    have hbuffer := h.committed
    rw [commit_of_buffer (by exact hbuffer)]
    simp
  complete := by simp [hasValue, lastEndsValue, ht]
  fresh := h.fresh

/-- Behind a token that leaves a value out one may be begun. -/
theorem Ready.push (h : Ready c) (front : List Token) {t : Token} (ht : t.endsValue = false) :
    Ready { c with entered := t :: front } :=
  ⟨h.committed, ht, h.fresh⟩

/-! ## Numbers -/

/-- The key of a digit character is that digit. -/
theorem apply_digitKey {ch : Char} (hch : ch.isDigit = true) :
    ∃ d : Decimal.Digit, d.toChar = ch ∧ c.apply (keyOfChar ch) = c.digit d := by
  obtain ⟨d, hd⟩ := Option.isSome_iff_exists.mp ((Stage.isSome_ofChar? ch).trans hch)
  refine ⟨d, ?_, ?_⟩
  · unfold Decimal.Digit.ofChar? at hd
    split at hd
    · next hrange =>
      obtain rfl := Option.some.inj hd
      show Char.ofNat (48 + (ch.toNat - 48)) = ch
      rw [Nat.add_sub_cancel' hrange.1, Char.ofNat_toNat]
    · cases hd
  · -- the key carries the digit in a byte
    have hbyte : (UInt8.ofNat d.val).toNat = d.val := by
      rw [UInt8.toNat_ofNat']
      omega
    simp [keyOfChar, hd, Calculator.apply, hbyte]

/-- A digit within the limit is typed where no result is shown. -/
theorem digit_of_fresh (hfresh : c.isResult = false)
    (hlimit : digitCount c.buffer < c.settings.digitLimit) (d : Decimal.Digit) :
    c.digit d = (.updated, c.beforeNumber.type [d.toChar]) := by
  have hopen : digitCount c.openNumber < c.settings.digitLimit := by
    simpa [openNumber, hfresh] using hlimit
  rw [digit, if_neg (Nat.not_le_of_lt hopen), startFresh_of_fresh hfresh]

/-- So is a point behind digits without a point or an exponent. -/
theorem decimalPoint_of_fresh (hfresh : c.isResult = false) (hne : c.buffer ≠ [])
    (hwhole : (c.buffer.contains '.' || c.buffer.contains 'e') = false) :
    c.decimalPoint = (.updated, c.type ['.']) := by
  rw [decimalPoint, hwhole, startFresh_of_fresh hfresh]
  simp [hne]

/-- A number that is being typed, or that no value stands in front of, needs no `×`. -/
theorem beforeNumber_of_room (h : c.buffer ≠ [] ∨ c.lastEndsValue = false) :
    c.beforeNumber = c := by
  rcases h with hbuffer | hends
  · simp [beforeNumber, hbuffer]
  · simp [beforeNumber, implicitMultiply, hends]

/-- A digit within the limit goes behind what has been typed. -/
theorem apply_digit (hfresh : c.isResult = false) (hroom : c.lastEndsValue = false)
    {ch : Char} (hch : ch.isDigit = true) (hlimit : digitCount c.buffer < c.settings.digitLimit) :
    c.apply (keyOfChar ch) = (.updated, { c with buffer := c.buffer ++ [ch] }) := by
  obtain ⟨d, hd, hkey⟩ := apply_digitKey (c := c) hch
  rw [hkey, digit_of_fresh hfresh hlimit, beforeNumber_of_room (.inr hroom), type, hd]

/-- Digits within the limit go behind what has been typed, one after the other. -/
theorem accepts_digits (hfresh : c.isResult = false) (hroom : c.lastEndsValue = false)
    {ds : List Char} (hds : ∀ ch ∈ ds, ch.isDigit = true)
    (hlimit : digitCount (c.buffer ++ ds) ≤ c.settings.digitLimit) :
    Accepts c (ds.map keyOfChar) { c with buffer := c.buffer ++ ds } := by
  induction ds generalizing c with
  | nil => simpa using Accepts.done c
  | cons ch ds ih =>
      have hch := hds ch (by simp)
      have hcount : digitCount c.buffer < c.settings.digitLimit := by
        simp [digitCount, List.countP_append, hch] at hlimit ⊢
        omega
      refine .press (apply_digit hfresh hroom hch hcount) ?_
      -- the other digits are typed behind this one
      have hrest := ih (c := { c with buffer := c.buffer ++ [ch] }) hfresh hroom
        (fun ch hch => hds ch (List.mem_cons_of_mem _ hch)) (by simpa using hlimit)
      simpa using hrest

/-- A point goes behind digits. -/
theorem apply_point (hfresh : c.isResult = false) (hne : c.buffer ≠ [])
    (hdigits : ∀ ch ∈ c.buffer, ch.isDigit = true) :
    c.apply (keyOfChar '.') = (.updated, { c with buffer := c.buffer ++ ['.'] }) := by
  have hnot : ∀ ch : Char, ch.isDigit = false → c.buffer.contains ch = false := by
    intro ch hch
    by_contra hmem
    have hdigit := hdigits ch (by simpa using hmem)
    rw [hch] at hdigit
    cases hdigit
  have hkey : keyOfChar '.' = .decimalPoint := by decide
  have hwhole : (c.buffer.contains '.' || c.buffer.contains 'e') = false := by
    rw [hnot '.' rfl, hnot 'e' rfl]
    rfl
  rw [hkey, Calculator.apply, decimalPoint_of_fresh hfresh hne hwhole]
  rfl

/-- The keys of a number put it into the buffer. -/
theorem Ready.accepts_number (h : Ready c) {literal : List Char} (hl : Typable literal)
    (hlimit : digitCount literal ≤ c.settings.digitLimit) :
    Accepts c (literal.map keyOfChar) { c with buffer := literal } := by
  have hwhole : ∀ {ds : List Char}, (∀ ch ∈ ds, ch.isDigit = true) →
      digitCount ds ≤ c.settings.digitLimit →
      Accepts c (ds.map keyOfChar) { c with buffer := ds } := by
    intro ds hds hcount
    have haccepts := accepts_digits h.fresh h.room hds (by simpa [h.committed] using hcount)
    simpa [h.committed] using haccepts
  cases hl with
  | whole _ hds => exact hwhole hds hlimit
  | @fraction ds fs hne hds _ hfs =>
      have hcount : digitCount ds ≤ c.settings.digitLimit := by
        simp [digitCount, List.countP_append] at hlimit ⊢
        omega
      have hdigits := hwhole hds hcount
      have hpoint := hdigits.concat (apply_point h.fresh hne hds)
      have hfraction := accepts_digits (c := { c with buffer := ds ++ ['.'] }) h.fresh h.room hfs
        (by simpa using hlimit)
      simpa using hpoint.append hfraction

/-! ## Phrases -/

/-- A token that needs a value in front of it finds everything as committing leaves
it. -/
theorem Holds.settle (h : Holds c ts c') :
    c'.settle = { c with entered := ts.reverse ++ c.entered } := by
  rw [settle_of_fresh h.fresh, h.commit_eq]

/-- An operator behind a phrase is put on. -/
theorem Holds.apply_operator {k : Category} (h : Holds c ts c') (hts : Phrase k ts)
    (op : Operator) :
    c'.apply (.operator op) =
      (.updated, { c with entered := .operator op :: ts.reverse ++ c.entered }) := by
  obtain ⟨front, t, rfl, ht⟩ := hts.getLast_endsValue
  have hends : c'.settle.lastEndsValue = true := by
    rw [h.settle]
    simp [lastEndsValue, ht]
  rw [Calculator.apply, operator_of_hasValue h.complete hends, h.settle]
  rfl

/-- The closing paren of a group that has been opened in front of an expression. -/
theorem Holds.apply_closeParen (h : Holds c ts c') (hts : Phrase .expression ts)
    (hopen : 0 < parenBalance c.tokens) :
    c'.apply .closeParen =
      (.updated, { c with entered := .closeParen :: ts.reverse ++ c.entered }) := by
  -- the phrase has closed what it opened
  have hbalance : parenBalance c'.tokens = parenBalance c.tokens := by
    rw [← parenBalance_commit, h.commit_eq]
    simp [tokens, parenBalance_append, hts.depth]
  have hclose : c'.canClose = true := by
    simp [canClose, hbalance, hopen, h.complete]
  rw [Calculator.apply, closeParen, if_pos hclose, h.settle]
  rfl

/-- A group is typed, whatever key opens it: an expression has been typed on top of its
paren, and the paren can be closed. -/
theorem Ready.accepts_group (h : Ready c) {front e : List Token} {key : Event} {mid : Calculator}
    (hkey : c.apply key = (.updated, { c with entered := .openParen :: front ++ c.entered }))
    (he : Phrase .expression e)
    (haccepts : Accepts { c with entered := .openParen :: front ++ c.entered } (keys e) mid)
    (hholds : Holds { c with entered := .openParen :: front ++ c.entered } e mid) :
    ∃ c', Accepts c (key :: keys e ++ [.closeParen]) c' ∧
      Holds c (front.reverse ++ .openParen :: e ++ [.closeParen]) c' := by
  have hopen : 0 < parenBalance
      (tokens { c with entered := .openParen :: front ++ c.entered }) := by
    rw [tokens, List.cons_append, List.reverse_cons, parenBalance_concat]
    exact Nat.succ_pos _
  have hclose := hholds.apply_closeParen he hopen
  refine ⟨_, .press hkey (haccepts.concat hclose), ?_⟩
  simpa using h.holds (front.reverse ++ .openParen :: e) (t := .closeParen) rfl

/-- **A phrase is typed key by key.** The induction is on the phrase: the rest of a
chain is typed on top of its first operator. -/
theorem accepts_phrase {k : Category} (hts : Phrase k ts) (h : Ready c)
    (hnumbers : ∀ literal, .number literal ∈ ts →
      Typable literal ∧ digitCount literal ≤ c.settings.digitLimit) :
    ∃ c', Accepts c (keys ts) c' ∧ Holds c ts c' := by
  induction hts generalizing c with
  | number literal =>
      -- the number stays in the buffer until the next key commits it
      obtain ⟨htypable, hlimit⟩ := hnumbers literal (by simp)
      have hpending := htypable.isComplete.pendingNumber?_eq
      refine ⟨{ c with buffer := literal }, ?_, ?_, ?_, h.fresh⟩
      · simpa [keys] using h.accepts_number htypable hlimit
      · simp [commit, hpending, h.committed]
      · have hne : literal ≠ [] := by
          rintro rfl
          cases hpending
        simp [hasValue, hne]
  | constant k =>
      have hkey : c.apply (.constant k) =
          (.updated, { c with entered := .constant k :: c.entered }) := by
        rw [Calculator.apply, constant, h.beforeValue]
        rfl
      exact ⟨_, .press hkey (.done _), h.holds [] rfl⟩
  | @group e he ih =>
      have hkey : c.apply .openParen =
          (.updated, { c with entered := .openParen :: [] ++ c.entered }) := by
        rw [Calculator.apply, openParen, h.beforeValue]
        rfl
      obtain ⟨mid, haccepts, hholds⟩ := ih (h.push c.entered (t := .openParen) rfl)
        fun literal hl => hnumbers literal (by simp [hl])
      obtain ⟨c', haccepts, hholds⟩ := h.accepts_group hkey he haccepts hholds
      exact ⟨c', by simpa [keys, he.keys_append] using haccepts, by simpa using hholds⟩
  | @application f e he ih =>
      have hkey : c.apply (.function f) =
          (.updated, { c with entered := .openParen :: [.function f] ++ c.entered }) := by
        rw [Calculator.apply, function, h.beforeValue]
        rfl
      obtain ⟨mid, haccepts, hholds⟩ := ih (h.push (.function f :: c.entered) (t := .openParen) rfl)
        fun literal hl => hnumbers literal (by simp [hl])
      obtain ⟨c', haccepts, hholds⟩ := h.accepts_group hkey he haccepts hholds
      exact ⟨c', by simpa [keys, he.keys_append] using haccepts, by simpa using hholds⟩
  | single _ ih => exact ih h hnumbers
  | @chain p op e hp he ihp ihe =>
      obtain ⟨mid, haccepts, hholds⟩ := ihp h fun literal hl => hnumbers literal (by simp [hl])
      have hready := h.push (p.reverse ++ c.entered) (t := .operator op) rfl
      obtain ⟨last, haccepts', hholds'⟩ := ihe hready fun literal hl =>
        hnumbers literal (by simp [hl])
      have hkeys := haccepts.append (.press (hholds.apply_operator hp op) haccepts')
      refine ⟨last, ?_, ?_, hholds'.complete, hholds'.fresh⟩
      · simpa [keys, hp.keys_append] using hkeys
      · simpa using hholds'.commit_eq

/-! ## A new calculator -/

theorem ready_new (settings : Settings) : Ready (new settings) :=
  ⟨rfl, rfl, rfl⟩

/-- **Every expression can be typed.** On a new calculator all keys of an expression are
accepted, provided that its numbers are within the digit limit, and they enter that
expression. Pressing equals evaluates it: either it has a value, which is displayed, or
the evaluation fails for a mathematical reason. -/
theorem typed_expression (settings : Settings) {ts : List Token} (hts : Phrase .expression ts)
    (hnumbers : ∀ literal, .number literal ∈ ts →
      Typable literal ∧ digitCount literal ≤ settings.digitLimit) :
    (∀ step ∈ (new settings).trace (keys ts), step.2.1 = .updated) ∧
      ((new settings).run (keys ts)).expression = ts ∧
      ((∃ r, evaluateTokens settings.startUnit settings.format ts = .ok r ∧
          (((new settings).run (keys ts)).apply .equals).1 = .evaluated r.display) ∨
        ∃ e, evaluateTokens settings.startUnit settings.format ts = .error e ∧
          e.isMathError = true ∧
          (((new settings).run (keys ts)).apply .equals).1 = .evaluated "Error".toList) := by
  obtain ⟨c, haccepts, hholds⟩ := accepts_phrase hts (ready_new settings) hnumbers
  have hexpression : c.expression = ts := by
    rw [← commit_tokens, hholds.commit_eq]
    simp [tokens, new]
  refine ⟨haccepts.outcomes, by rw [haccepts.run, hexpression], ?_⟩
  have hread : ∀ literal, .number literal ∈ ts → (Decimal.readFloat? literal).isSome := by
    intro literal hl
    exact (hnumbers literal hl).1.isComplete.isSome_readFloat?
  -- typing has changed neither the unit of angles nor the settings
  have hunit : c.angleUnit = settings.startUnit := by
    rw [← commit_angleUnit, hholds.commit_eq]
    rfl
  have hsettings : c.settings = settings := by
    rw [← commit_settings, hholds.commit_eq]
    rfl
  have hequals := c.equals_outcome
  rw [hexpression, hunit, hsettings] at hequals
  rw [haccepts.run, Calculator.apply, hequals]
  rcases evaluateTokens_of_readable _ _ hts.finalize_self hts hread with ⟨r, hr⟩ | ⟨e, he, hmath⟩
  · exact .inl ⟨r, hr, by rw [hr]⟩
  · exact .inr ⟨e, he, hmath, by rw [he]; simp [hmath, errorText]⟩

/-- The theorem applies to `sin(30÷2.5)^π`. -/
theorem typed_sine :
    let ts : List Token := [.function .sin, .openParen, .number ['3', '0'], .operator .divide,
      .number ['2', '.', '5'], .closeParen, .operator .power, .constant .pi]
    (∀ step ∈ (new {}).trace (keys ts), step.2.1 = .updated) ∧
      ((new {}).run (keys ts)).expression = ts ∧
      ((∃ r, evaluateTokens .radians {} ts = .ok r ∧
          (((new {}).run (keys ts)).apply .equals).1 = .evaluated r.display) ∨
        ∃ e, evaluateTokens .radians {} ts = .error e ∧ e.isMathError = true ∧
          (((new {}).run (keys ts)).apply .equals).1 = .evaluated "Error".toList) := by
  apply typed_expression {}
  · have hquotient : Phrase .expression
        [.number ['3', '0'], .operator .divide, .number ['2', '.', '5']] :=
      .chain .divide (.number _) (.single (.number _))
    exact .chain .power (.application .sin hquotient) (.single (.constant .pi))
  · intro literal hl
    have hnumber : literal = ['3', '0'] ∨ literal = ['2', '.', '5'] := by simpa using hl
    rcases hnumber with rfl | rfl
    · exact ⟨.whole (by simp) (by simp), by decide⟩
    · have htwo : ∀ ch ∈ ['2'], ch.isDigit = true := by simp
      exact ⟨.fraction (by simp) htwo (by simp) (by simp), by decide⟩

end Calculator

end PocketCalc
