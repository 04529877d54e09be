import PocketCalc.Proofs.EntryOrder

/-!
# Reading the line back

The display puts the texts of tokens next to each other, with spaces around operators only, and
the text of a number may hold signs and an `e`, which are tokens elsewhere. Still the line tells
which tokens it shows, as long as they stand where the grammar lets them and the numbers begin
like numbers:

* the texts of all tokens but the numbers are a prefix code (`spaced_prefix_free`), and none of
  them begins like a number;
* a number is followed by an operator or a closing paren, so that it ends where the characters
  of a number do (`Legible.number_ends`).

So the first token of a line is known, and what is behind it is a line again.

* `line_determines_expression` — **tokens with the same line are the same.**
-/

namespace PocketCalc

/-! ## Texts of numbers -/

/-- The characters of a number. -/
def isNumberChar (ch : Char) : Bool :=
  ch.isDigit || ch = '.' || ch = 'e' || ch = '+' || ch = '-'

/-- The stages of a number know no other characters. -/
theorem Stage.isNumberChar_of_after? {s s' : Stage} {text : List Char}
    (h : s.after? text = some s') : ∀ ch ∈ text, isNumberChar ch = true := by
  induction text generalizing s with
  | nil => exact nofun
  | cons ch text ih =>
      rw [after?_cons] at h
      obtain ⟨next, hnext, hrest⟩ := Option.bind_eq_some_iff.mp h
      refine List.forall_mem_cons.mpr ⟨?_, ih hrest⟩
      rcases next?_cases hnext with ⟨hdigit, _⟩ | ⟨_, rfl, _⟩ | ⟨_, rfl, _⟩ | ⟨_, rfl, _⟩ |
        ⟨_, rfl | rfl, _⟩
      · simp [isNumberChar, hdigit]
      all_goals rfl

/-- A text that looks like a number: it has the characters of one only, and it begins with a
digit or a minus sign. It need not be one. -/
structure NumberLike (text : List Char) : Prop where
  chars : ∀ ch ∈ text, isNumberChar ch = true
  first : ∃ ch rest, text = ch :: rest ∧ (ch.isDigit = true ∨ ch = '-')

/-- A text that a number may begin with looks like one. -/
theorem numberLike_of_stage? {text : List Char} {s : Stage} (h : stage? text = some s)
    (hne : text ≠ []) : NumberLike text where
  chars := Stage.isNumberChar_of_after? h
  first := by
    obtain ⟨ch, rest, rfl⟩ := List.exists_cons_of_ne_nil hne
    refine ⟨ch, rest, rfl, ?_⟩
    rw [stage?, Stage.after?_cons] at h
    obtain ⟨s', hnext, _⟩ := Option.bind_eq_some_iff.mp h
    by_cases hminus : ch = '-'
    · exact .inr hminus
    · simp only [Stage.next?, hminus, if_false] at hnext
      split at hnext
      · next hdigit => exact .inl hdigit
      · cases hnext

/-- Such a text ends at the first other character. -/
theorem NumberLike.takeWhile {text rest : List Char} (h : NumberLike text)
    (hrest : ∀ ch ∈ rest.head?, isNumberChar ch = false) :
    (text ++ rest).takeWhile isNumberChar = text := by
  rw [List.takeWhile_append_of_pos h.chars, List.takeWhile_eq_nil_iff.mpr, List.append_nil]
  intro hpos
  have hhead := hrest rest[0] (by simp [List.head?_eq_getElem?])
  simp [hhead]

/-! ## Texts of tokens on the line -/

namespace Token

/-- What the line shows for a token. -/
def spaced (t : Token) : List Char :=
  (DisplayToken.ofToken t).spaced

/-- The tokens whose text is always the same. -/
def fixed : List Token :=
  Operator.all.map .operator ++ Func.all.map .function ++
    [.constant .pi, .constant .e, .openParen, .closeParen]

/-- A token is a number or one of these. -/
theorem number_or_fixed (t : Token) : (∃ literal, t = .number literal) ∨ t ∈ fixed := by
  cases t with
  | number literal => exact .inl ⟨literal, rfl⟩
  | operator op => cases op <;> exact .inr (by decide)
  | function f => cases f <;> exact .inr (by decide)
  | constant c => cases c <;> exact .inr (by decide)
  | openParen => exact .inr (by decide)
  | closeParen => exact .inr (by decide)

/-- **No text is the beginning of another.** -/
theorem spaced_prefix_free : ∀ t ∈ fixed, ∀ u ∈ fixed, t.spaced <+: u.spaced → t = u := by
  decide

/-- None is empty or begins like a number. -/
theorem spaced_first {t : Token} (ht : t ∈ fixed) :
    ∃ ch ∈ t.spaced.head?, ch.isDigit = false ∧ ch ≠ '-' := by
  have hall : ∀ t ∈ fixed, t.spaced.head?.any (fun ch => !ch.isDigit && ch != '-') = true := by
    decide
  obtain ⟨ch, hhead, hch⟩ := (Option.any_eq_true _ _).mp (hall t ht)
  exact ⟨ch, hhead, by simpa using hch⟩

/-- So a number and another token begin differently. -/
theorem number_append_ne {literal rest rest' : List Char} (h : NumberLike literal) {u : Token}
    (hu : u ∈ fixed) : (number literal).spaced ++ rest ≠ u.spaced ++ rest' := by
  intro heq
  obtain ⟨ch, tail, rfl, hfirst⟩ := h.first
  obtain ⟨ch', hhead, hdigit, hminus⟩ := spaced_first hu
  rw [List.eq_cons_of_mem_head? hhead] at heq
  obtain ⟨rfl, _⟩ := List.cons.inj heq
  rcases hfirst with hch | hch
  · rw [hch] at hdigit
    cases hdigit
  · exact hminus hch

end Token

/-! ## Lines -/

/-- The tokens keep the rules of the grammar for what stands next to what, and the numbers look
like numbers. -/
structure Legible (ts : List Token) : Prop where
  adjacent : ts.IsChain Token.MayPrecede
  numbers : ∀ literal, .number literal ∈ ts → NumberLike literal

theorem expressionText_cons (t : Token) (ts : List Token) :
    expressionText (t :: ts) [] = t.spaced ++ expressionText ts [] := by
  simp [expressionText, lineOf, Token.spaced]

namespace Legible

variable {t u : Token} {ts us : List Token}

theorem tail (h : Legible (t :: ts)) : Legible ts where
  adjacent := h.adjacent.tail
  numbers := fun literal hl => h.numbers literal (List.mem_cons_of_mem _ hl)

/-- The line is not empty, -/
theorem expressionText_ne_nil (h : Legible (t :: ts)) : expressionText (t :: ts) [] ≠ [] := by
  rw [expressionText_cons]
  rcases t.number_or_fixed with ⟨literal, rfl⟩ | hfixed
  · obtain ⟨ch, rest, rfl, _⟩ := (h.numbers literal (by simp)).first
    exact List.cons_ne_nil _ _
  · obtain ⟨ch, hhead, _⟩ := Token.spaced_first hfixed
    rw [List.eq_cons_of_mem_head? hhead]
    exact List.cons_ne_nil _ _

/-- and behind a number it goes on with no character of one. -/
theorem number_ends {literal : List Char} (h : Legible (.number literal :: ts)) :
    ∀ ch ∈ (expressionText ts []).head?, isNumberChar ch = false := by
  cases ts with
  | nil => exact nofun
  | cons u us =>
      obtain ⟨hnext, _⟩ := List.isChain_cons_cons.mp h.adjacent
      obtain ⟨ch, hhead, hch⟩ : ∃ ch ∈ u.spaced.head?, isNumberChar ch = false := by
        rcases hnext with hop | rfl
        · cases u with
          | operator op => exact ⟨' ', rfl, rfl⟩
          | _ => cases hop
        · exact ⟨')', rfl, rfl⟩
      rw [expressionText_cons, List.eq_cons_of_mem_head? hhead]
      simpa using hch

/-- **The line tells its first token.** -/
theorem first_token (ht : Legible (t :: ts)) (hu : Legible (u :: us))
    (h : expressionText (t :: ts) [] = expressionText (u :: us) []) : t = u := by
  rw [expressionText_cons, expressionText_cons] at h
  rcases t.number_or_fixed with ⟨literal, rfl⟩ | htfixed
  · have hlike := ht.numbers literal (by simp)
    rcases u.number_or_fixed with ⟨literal', rfl⟩ | hufixed
    · -- both numbers take up the characters of a number that the line begins with
      have hlike' := hu.numbers literal' (by simp)
      have hspan := congrArg (List.takeWhile isNumberChar) h
      have hleft : (literal ++ expressionText ts []).takeWhile isNumberChar = literal :=
        hlike.takeWhile ht.number_ends
      have hright : (literal' ++ expressionText us []).takeWhile isNumberChar = literal' :=
        hlike'.takeWhile hu.number_ends
      exact congrArg Token.number (hleft.symm.trans (hspan.trans hright))
    · exact absurd h (Token.number_append_ne hlike hufixed)
  · rcases u.number_or_fixed with ⟨literal, rfl⟩ | hufixed
    · exact absurd h.symm (Token.number_append_ne (hu.numbers literal (by simp)) htfixed)
    · have hpre : t.spaced <+: u.spaced ++ expressionText us [] := by
        rw [← h]
        exact List.prefix_append _ _
      rcases List.prefix_or_prefix_of_prefix hpre (List.prefix_append _ _) with htu | hut
      · exact Token.spaced_prefix_free t htfixed u hufixed htu
      · exact (Token.spaced_prefix_free u hufixed t htfixed hut).symm

end Legible

/-- **The line determines the expression.** Tokens that keep the rules of the grammar for what
stands next to what, and whose numbers look like numbers, are the same if the display shows the
same line for them. -/
theorem line_determines_expression {ts us : List Token} (hts : Legible ts) (hus : Legible us)
    (h : expressionText ts [] = expressionText us []) : ts = us := by
  induction ts generalizing us with
  | nil =>
      cases us with
      | nil => rfl
      | cons u us => exact absurd h.symm hus.expressionText_ne_nil
  | cons t ts ih =>
      cases us with
      | nil => exact absurd h hts.expressionText_ne_nil
      | cons u us =>
          obtain rfl := hts.first_token hus h
          rw [expressionText_cons, expressionText_cons] at h
          rw [ih hts.tail hus.tail (List.append_cancel_left h)]

namespace Calculator

/-- What a calculator holds is legible, unless it has cut a result to no character at all. -/
theorem Sound.legible {c : Calculator} (h : Sound c) (hne : .number [] ∉ c.tokens) :
    Legible c.tokens where
  adjacent := by
    obtain ⟨d, hd⟩ := h.entered
    exact hd.isInfixPrefix.adjacent
  numbers := by
    intro literal hl
    obtain ⟨s, hs, _⟩ := h.written.exists_stage literal (List.mem_reverse.mp hl)
    refine numberLike_of_stage? hs ?_
    rintro rfl
    exact hne hl

/-- It applies to `-2.5e-7 × sin(e`, entered with the `×` left out and with another operator in
front of it. -/
theorem line_determines_product :
    let result := (new {}).run [.operator .subtract, .digit 2, .decimalPoint, .digit 5,
      .operator .divide, .digit 1, .digit 0, .digit 0, .digit 0, .digit 0, .digit 0, .digit 0,
      .digit 0, .equals]
    let ts := (result.run [.function .sin, .constant .e]).tokens
    let us :=
      (result.run [.operator .add, .operator .multiply, .function .sin, .constant .e]).tokens
    expressionText ts [] = "-2.5e-7 × sin(e".toList ∧ Legible ts ∧ Legible us ∧
      expressionText ts [] = expressionText us [] ∧ ts = us := by
  intro result ts us
  have hsound : Sound result := sound_run {} _
  have hts : Legible ts := (hsound.run _).legible (by decide +kernel)
  have hus : Legible us := (hsound.run _).legible (by decide +kernel)
  have hline : expressionText ts [] = "-2.5e-7 × sin(e".toList := by decide +kernel
  have hsame : expressionText ts [] = expressionText us [] := by decide +kernel
  exact ⟨hline, hts, hus, hsame, line_determines_expression hts hus hsame⟩

end Calculator

end PocketCalc
