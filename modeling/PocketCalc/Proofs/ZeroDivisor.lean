import PocketCalc.Proofs.EntryBuffer
import PocketCalc.Proofs.NumberValue
import PocketCalc.Proofs.SkippedEntries

/-!
# The warning of a zero divisor

The calculator warns as soon as the number being typed behind a `÷` is zero. It looks at the
last token and at the buffer alone, while an evaluation completes the whole expression and brings
its operators into another order. Still the warning is right: the number being typed is the last
of the expression, so that nothing can come between it and the operator in front of it.

* `readFloat?_of_pendingNumber?` — the buffer and the number that is committed for it have the
  same value.
* `last_operand` — **a number at the end is the right operand of the operator in front of it**,
  whatever stands before them.
* `warned_divisor_divides` — **where the calculator warns, an evaluation divides by zero.**
-/

namespace PocketCalc

open Decimal

/-! ## The value of the number being typed -/

/-- A text of digits spells its digits. -/
theorem IsDigits.exists_spell {text : List Char} (h : IsDigits text) :
    ∃ ds, ds ≠ [] ∧ text = spell ds := by
  have hnone : ∀ {text : List Char}, (∀ ch ∈ text, ch.isDigit = true) →
      (takeDigits text).2 = [] := by
    intro text hdigits
    induction text with
    | nil => rfl
    | cons ch text ih =>
        obtain ⟨hch, hrest⟩ := List.forall_mem_cons.mp hdigits
        obtain ⟨d, hd⟩ := Stage.takeDigits_digit hch text
        rw [hd]
        exact ih hrest
  have hspell := spell_takeDigits text
  rw [hnone h.2, List.append_nil] at hspell
  refine ⟨(takeDigits text).1, ?_, hspell.symm⟩
  intro hnil
  rw [hnil] at hspell
  exact h.1 hspell.symm

/-- A point behind the digits of a number changes nothing about its value. -/
theorem readFloat?_final_point (negative : Bool) {text : List Char} (h : IsDigits text) :
    readFloat? (signed negative (text ++ ['.'])) = readFloat? (signed negative text) := by
  obtain ⟨ds, hne, rfl⟩ := h.exists_spell
  have hwhole : Literal.parse? (signed negative (spell ds)) = some (.number negative ds [] 0) := by
    have hread := @parse?_pointed ds [] negative hne [] 0 (by simp) rfl
    rwa [List.append_nil] at hread
  have hpoint : Literal.parse? (signed negative (spell ds ++ ['.'])) =
      some (.number negative ds [] 0) := by
    obtain ⟨ch, rest, hhead, hch⟩ := h.head
    obtain ⟨hinf, hinfinity, hnan⟩ := Stage.lowered_ne hch (rest ++ ['.'])
    rw [← List.cons_append, ← hhead] at hinf hinfinity hnan
    have htake : takeDigits (spell ds ++ ['.']) = (ds, ['.']) := takeDigits_spell ds (by simp)
    have hsign : takeSign (signed negative (spell ds ++ ['.'])) =
        (negative, spell ds ++ ['.']) := by
      rw [hhead]
      exact takeSign_signed negative (by simpa using hch)
    simp only [Literal.parse?, hsign, Literal.parseUnsigned?, hinf, hinfinity, hnan, or_self,
      if_false, htake, hne, false_and]
    rfl
  rw [readFloat?, readFloat?, hpoint, hwhole]

/-- **What is committed for a buffer has its value.** -/
theorem readFloat?_of_pendingNumber? {text literal : List Char} (h : IsDraft text)
    (hpending : pendingNumber? text = some (.number literal)) :
    readFloat? literal = readFloat? text := by
  obtain ⟨s, hs, hdraft⟩ := h
  cases endsAs_of_stage? hs with
  | @digit front ch _ _ hcomplete =>
      have hsame : IsComplete (front ++ [ch]) := ⟨s, hs, hcomplete⟩
      rw [hsame.pendingNumber?_eq] at hpending
      rw [Token.number.inj (Option.some.inj hpending)]
  | @point front hfront =>
      -- the point goes, and what is in front of it is whole
      have hcomplete : IsComplete front := ⟨.whole, hfront, rfl⟩
      rw [pendingNumber?_concat_point, hcomplete.pendingNumber?_eq] at hpending
      rw [← Token.number.inj (Option.some.inj hpending)]
      obtain ⟨negative, body, rfl, hbody⟩ := NumberBody.of_stage? hfront nofun
      cases hbody with
      | whole hdigits => rw [← signed_append, readFloat?_final_point negative hdigits]
  | _ => cases hdraft

/-! ## A number at the end of an expression -/

variable {α : Type} {A : Arithmetic α}

namespace Postfix

/-- What is written for a number at the end is followed by the operator in front of it, since
nothing is released between the two. No value comes after it. -/
theorem ofTokens_last_operand {ts : List Token} (hts : Readable A ts) (op : Operator)
    {literal : List Char} {v : α} (hv : A.literal? literal = some v) :
    ∃ before after, after.filterMap Item.value? = [] ∧
      ofTokens A (ts ++ [.operator op, .number literal]) =
        .ok (before ++ .value v :: .operator op :: after) := by
  obtain ⟨out, held, hfront, -, -⟩ := convert_front hts []
  refine ⟨out ++ (release op held).1, drain (release (α := α) op held).2, values_drain _, ?_⟩
  have hlast : convert A [.number literal] (.operator op :: (release (α := α) op held).2) =
      .ok (.value v :: .operator op :: drain (release (α := α) op held).2) := by
    simp only [convert, hv]
    rfl
  rw [ofTokens, hfront, convert, hlast, map_append_map]
  rfl

end Postfix

/-- Completion keeps all numbers. -/
theorem readable_finalize {ts us : List Token} (h : finalize ts = .ok us) :
    Readable A us ↔ Readable A ts := by
  simp only [Readable, number_mem_finalize h]

/-- Completing an expression that ends with a number only closes its groups. -/
theorem finalize_concat_number (ts : List Token) (literal : List Char) :
    ∃ n, finalize (ts ++ [.number literal]) =
      .ok (ts ++ [.number literal] ++ List.replicate n .closeParen) := by
  refine ⟨parenBalance (ts ++ [.number literal]), ?_⟩
  rw [finalize_eq, rdropWhile_of_endsValue ts rfl, if_neg (by simp)]

namespace Machine

open Postfix (Item)

/-- An operator right behind a value has this value on its right. -/
theorem operands_of_skipsNone {before after : List (Item α)} {v : α} {op : Operator}
    (h : SkipsNone A {} (before ++ .value v :: .operator op :: after)) :
    ∃ left below, (run A {} (before ++ [.value v])).stack = v :: left :: below := by
  obtain ⟨-, -, hoperator, -⟩ := (skipsNone_append A {} before _).mp h
  have hrun : run A {} (before ++ [.value v]) = (run A {} before).step A (.value v) := by
    rw [run_append]
    rfl
  have hstack : (run A {} before).stack ≠ [] := by
    intro hnil
    exact hoperator (by simp [Skips, step, hnil])
  obtain ⟨left, below, hleft⟩ := List.exists_cons_of_ne_nil hstack
  refine ⟨left, below, ?_⟩
  rw [hrun, step, hleft]

end Machine

/-- **A number at the end is the right operand of the operator in front of it**, whatever stands
before the two and however it is grouped. It is the last value of the sequence. -/
theorem last_operand {ts complete : List Token} {op : Operator} {literal : List Char} {v : α}
    (hcomplete : finalize (ts ++ [.operator op, .number literal]) = .ok complete)
    (hexpression : Phrase .expression complete) (hread : Readable A complete)
    (hv : A.literal? literal = some v) :
    ∃ before after left below, after.filterMap Postfix.Item.value? = [] ∧
      Postfix.ofTokens A complete = .ok (before ++ .value v :: .operator op :: after) ∧
      (Machine.run A {} (before ++ [.value v])).stack = v :: left :: below := by
  have hts : Readable A ts := by
    intro l hl
    exact (readable_finalize hcomplete).mp hread l (List.mem_append_left _ hl)
  obtain ⟨before, after, hlast, hitems⟩ := Postfix.ofTokens_last_operand hts op hv
  obtain ⟨n, hclosed⟩ := finalize_concat_number (ts ++ [.operator op]) literal
  rw [List.append_assoc, List.singleton_append, hcomplete] at hclosed
  have hsame : Postfix.ofTokens A complete = .ok (before ++ .value v :: .operator op :: after) := by
    rw [Except.ok.inj hclosed, Postfix.ofTokens, Postfix.convert_append_closeParens]
    exact hitems
  obtain ⟨tree, htree⟩ := hexpression.exists_reading hread
  have hpostorder := Except.ok.inj (htree.ofTokens.symm.trans hsame)
  have hskips := Machine.skipsNone_postorder A tree {}
  rw [hpostorder] at hskips
  obtain ⟨left, below, hstack⟩ := Machine.operands_of_skipsNone hskips
  exact ⟨before, after, left, below, hlast, hsame, hstack⟩

/-! ## A division by zero -/

/-- A sequence that divides by zero has a finite result, or the error is this division. -/
theorem evaluate_of_zeroDivisor {items : List (Postfix.Item α)} {v : α} (hv : .value v ∈ items)
    (hzero : Machine.MeetsZeroDivisor A {} items) :
    (∃ x, evaluate A items = .ok x ∧ A.isFinite x = true) ∨
      evaluate A items = .error .divisionByZero := by
  obtain ⟨top, below, hstack⟩ := exists_top (A := A) hv
  rw [evaluate_of_stack hstack, zeroDivisor_iff.mpr hzero]
  by_cases hfinite : A.isFinite top = true
  · exact .inl ⟨top, by rw [checkFinite, if_pos hfinite], hfinite⟩
  · exact .inr (by rw [checkFinite, if_neg hfinite, if_pos rfl])

/-- So has an expression whose sequence does. -/
theorem evaluateTokens_of_zeroDivisor {unit : AngleUnit} (f : NumberFormat)
    {ts complete : List Token} {items : List (Postfix.Item Float)} {v : Float}
    (hcomplete : finalize ts = .ok complete)
    (hitems : Postfix.ofTokens (.binary64 unit) complete = .ok items) (hv : .value v ∈ items)
    (hzero : Machine.MeetsZeroDivisor (.binary64 unit) {} items) :
    (∃ r, evaluateTokens unit f ts = .ok r) ∨
      evaluateTokens unit f ts = .error .divisionByZero := by
  have hvalue : valueOf (.binary64 unit) ts = evaluate (.binary64 unit) items := by
    simp [valueOf, hcomplete, hitems, bind, Except.bind]
  rcases evaluate_of_zeroDivisor hv hzero with ⟨x, hx, hfinite⟩ | herror
  · exact .inl ⟨_, evaluateTokens_of_valueOf unit f (hvalue.trans hx) hfinite⟩
  · exact .inr (evaluateTokens_of_valueOf_error unit f (hvalue.trans herror))

/-! ## The warning -/

namespace Calculator

/-- The calculator warns of a buffer with the value zero right behind a `÷`. -/
theorem divisionWarning_iff (c : Calculator) :
    c.divisionWarning = true ↔ ∃ rest v, c.entered = .operator .divide :: rest ∧
      readFloat? c.buffer = some v ∧ (v == 0) = true := by
  unfold divisionWarning
  constructor
  · intro h
    split at h
    · next rest hentered =>
      split at h
      · next v hv => exact ⟨rest, v, hentered, hv, h⟩
      · cases h
    · cases h
  · rintro ⟨rest, v, hentered, hv, hzero⟩
    simp only [hentered, hv, hzero]

/-- What the calculator warns of is a number to be committed behind a `÷`. -/
theorem Sound.warned_number {c : Calculator} (h : Sound c) (hwarning : c.divisionWarning = true) :
    ∃ front literal divisor, c.tokens = front ++ [.operator .divide] ∧
      pendingNumber? c.buffer = some (.number literal) ∧ readFloat? c.buffer = some divisor ∧
      readFloat? literal = some divisor ∧ (divisor == 0) = true := by
  obtain ⟨rest, divisor, hentered, hvalue, hzero⟩ := c.divisionWarning_iff.mp hwarning
  -- an empty buffer has no value
  have hbuffer : c.buffer ≠ [] := by
    intro hnil
    rw [hnil] at hvalue
    cases hvalue
  have hdraft : IsDraft c.buffer := h.editable.resolve_left hbuffer
  obtain ⟨literal, hpending, -⟩ := hdraft.pendingNumber?
  have hsame := readFloat?_of_pendingNumber? hdraft hpending
  refine ⟨rest.reverse, literal, divisor, ?_, hpending, hvalue, hsame.trans hvalue, hzero⟩
  rw [tokens, hentered, List.reverse_cons]

/-- **The warning is right**: where it is shown and the committed numbers can be read, an
evaluation divides by zero. The buffer is committed as a number of the same value `divisor`. This
is the last value in the postfix sequence of the completed expression, and it stands right in
front of a `÷`, which finds it on the top of the stack and a dividend below it, so that it is not
skipped. And the result is finite, or the error is a division by zero; never a domain error nor a
malformed input. -/
theorem warned_divisor_divides (settings : Settings) (events : List Event) :
    let s := (new settings).run events
    let A := Arithmetic.binary64 s.angleUnit
    s.divisionWarning = true →
    (∀ literal, .number literal ∈ s.tokens → (readFloat? literal).isSome = true) →
    (∃ literal divisor complete before after dividend below,
      pendingNumber? s.buffer = some (.number literal) ∧
      readFloat? s.buffer = some divisor ∧ readFloat? literal = some divisor ∧
      A.isZero divisor = true ∧
      finalize s.expression = .ok complete ∧
      Postfix.ofTokens A complete =
        .ok (before ++ .value divisor :: .operator .divide :: after) ∧
      after.filterMap Postfix.Item.value? = [] ∧
      (Machine.run A {} (before ++ [.value divisor])).stack = divisor :: dividend :: below ∧
      ¬ (Machine.run A {} (before ++ [.value divisor])).Skips (.operator .divide)) ∧
    ((∃ r, evaluateTokens s.angleUnit s.settings.format s.expression = .ok r) ∨
      evaluateTokens s.angleUnit s.settings.format s.expression = .error .divisionByZero) := by
  intro s A hwarning hread
  have hsound : Sound s := sound_run settings events
  obtain ⟨front, literal, divisor, htokens, hpending, hvalue, hliteral, hzero⟩ :=
    hsound.warned_number hwarning
  have hexpression : s.expression = s.tokens ++ [.number literal] := by
    rw [expression, hpending]
    rfl
  obtain ⟨n, hcomplete⟩ := finalize_concat_number s.tokens literal
  rw [← hexpression] at hcomplete
  have hreadable : Readable A (s.expression ++ List.replicate n .closeParen) := by
    rw [readable_finalize hcomplete, hexpression]
    intro l hl
    rcases List.mem_append.mp hl with htoken | hlast
    · exact hread l htoken
    · rw [Token.number.inj (List.mem_singleton.mp hlast)]
      exact Option.isSome_of_eq_some hliteral
  have hsplit : finalize (front ++ [.operator .divide, .number literal]) =
      .ok (s.expression ++ List.replicate n .closeParen) := by
    rw [← hcomplete, hexpression, htokens, List.append_assoc, List.singleton_append]
  obtain ⟨before, after, dividend, below, hlast, hitems, hstack⟩ :=
    last_operand (A := A) hsplit (hsound.finalize_expression hcomplete) hreadable hliteral
  refine ⟨⟨literal, divisor, _, before, after, dividend, below, hpending, hvalue, hliteral, hzero,
    hcomplete, hitems, hlast, hstack, ?_⟩, ?_⟩
  · simp [Machine.Skips, hstack]
  · apply evaluateTokens_of_zeroDivisor s.settings.format hcomplete hitems (v := divisor) (by simp)
    exact ⟨before ++ [.value divisor], .operator .divide, after, by simp, rfl, divisor, dividend,
      below, hstack, hzero⟩

/-- It applies to `(2+6÷0.`, where a point is typed behind the divisor and a group is open. The
`÷` finds the zero on the top of the stack with the six below it, and the sum of the infinite
quotient is a division by zero. -/
theorem warned_divisor_of_open_group :
    let s := (new {}).run [.openParen, .digit 2, .operator .add, .digit 6, .operator .divide,
      .digit 0, .decimalPoint]
    let A := Arithmetic.binary64 s.angleUnit
    s.divisionWarning = true ∧ s.buffer = ['0', '.'] ∧
      s.tokens = [.openParen, .number ['2'], .operator .add, .number ['6'], .operator .divide] ∧
      finalize s.expression = .ok (s.tokens ++ [.number ['0'], .closeParen]) ∧
      Postfix.ofTokens A (s.tokens ++ [.number ['0'], .closeParen]) =
        .ok [.value 2, .value 6, .value 0, .operator .divide, .operator .add] ∧
      (Machine.run A {} [.value 2, .value 6, .value 0]).stack = [0, 6, 2] ∧
      ¬ (Machine.run A {} [.value 2, .value 6, .value 0]).Skips (.operator .divide) ∧
      evaluateTokens s.angleUnit s.settings.format s.expression = .error .divisionByZero := by
  intro s A
  have hwarning : s.divisionWarning = true ∧ s.buffer = ['0', '.'] := by decide +kernel
  have htokens : s.tokens =
      [.openParen, .number ['2'], .operator .add, .number ['6'], .operator .divide] := by
    decide +kernel
  have hread (literal : List Char) (hliteral : .number literal ∈ s.tokens) :
      (readFloat? literal).isSome = true := by
    have hdigit : literal = ['2'] ∨ literal = ['6'] := by simpa [htokens] using hliteral
    rcases hdigit with rfl | rfl
    · decide +kernel
    · decide +kernel
  have hcompleted : finalize s.expression = .ok (s.tokens ++ [.number ['0'], .closeParen]) := by
    decide +kernel
  have hconverted : Postfix.ofTokens A (s.tokens ++ [.number ['0'], .closeParen]) =
      .ok [.value 2, .value 6, .value 0, .operator .divide, .operator .add] := by
    decide +kernel
  obtain ⟨⟨_, divisor, complete, before, after, _, _, -, -, -, -, hcomplete, hitems, -, -,
    happlied⟩, hresult⟩ := warned_divisor_divides {} _ hwarning.1 hread
  -- the sequence has one `÷`, so that it is cut there
  have hfront : before ++ [.value divisor] = [.value 2, .value 6, .value 0] := by
    obtain rfl : complete = s.tokens ++ [.number ['0'], .closeParen] :=
      Except.ok.inj (hcomplete.symm.trans hcompleted)
    have hcut : [.value 2, .value 6, .value 0] ++ .operator .divide :: [.operator .add] =
        before ++ [.value divisor] ++ .operator .divide :: after := by
      rw [List.append_assoc]
      exact Except.ok.inj (hconverted.symm.trans hitems)
    exact ((List.append_cons_inj_of_notMem (by simp) (by simp)).mp hcut).1.symm
  have herror : evaluateTokens s.angleUnit s.settings.format s.expression =
      .error .divisionByZero := by
    refine hresult.resolve_left ?_
    rintro ⟨r, hr⟩
    have hnone : (evaluateTokens s.angleUnit s.settings.format s.expression).toBool = false := by
      decide +kernel
    rw [hr] at hnone
    cases hnone
  rw [hfront] at happlied
  exact ⟨hwarning.1, hwarning.2, htokens, hcompleted, hconverted, by decide +kernel, happlied,
    herror⟩

end Calculator

end PocketCalc
