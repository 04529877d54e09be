import Mathlib.Data.List.Chain
import Mathlib.Data.List.DropRight
import PocketCalc.Postfix

/-!
# The grammar of expressions

An expression is a chain of primaries with an operator between two of them, and a
primary is a number, a constant, a group, or a function applied to a group. Two
views of what is still being entered stand beside it:

* **left to right** — `Opened d ts`: `ts` lacks exactly one expression and then
  `d` closing parens. A whole expression behind it can be closed up
  (`Opened.complete`).
* **latest token first** — `Entered d b ts`: one constructor for each token that
  may be put on, with the depth `d` of open groups and whether a value is complete
  (`b`). Taking a token off again is inversion.

Both describe the same beginnings (`Entered.opened`), these are the token sequences
that obey the adjacency and nesting rules (`Entered.isInfixPrefix`), and completing
one of them gives an expression (`Entered.finalize_expression`).
-/

namespace PocketCalc

/-! ## Phrases -/

/-- The two kinds of phrase. -/
inductive Category where
  | expression | primary

/-- The token sequences of a kind. -/
inductive Phrase : Category → List Token → Prop
  | number (literal : List Char) : Phrase .primary [.number literal]
  | constant (c : Constant) : Phrase .primary [.constant c]
  | group {e} : Phrase .expression e → Phrase .primary (.openParen :: e ++ [.closeParen])
  | application (f : Func) {e} : Phrase .expression e →
      Phrase .primary (.function f :: .openParen :: e ++ [.closeParen])
  | single {p} : Phrase .primary p → Phrase .expression p
  | chain {p} (op : Operator) {e} : Phrase .primary p → Phrase .expression e →
      Phrase .expression (p ++ .operator op :: e)

/-- Two expressions with an operator between them are an expression. -/
theorem Phrase.join {a b : List Token} (ha : Phrase .expression a)
    (op : Operator) (hb : Phrase .expression b) :
    Phrase .expression (a ++ .operator op :: b) := by
  generalize hk : Category.expression = k at ha
  induction ha with
  | number literal => cases hk
  | constant c => cases hk
  | group _ _ => cases hk
  | application f _ _ => cases hk
  | single hp _ => exact .chain op hp hb
  | chain op' hp _ _ ih =>
      have hrest := ih rfl
      rw [List.append_assoc, List.cons_append]
      exact .chain op' hp hrest

/-- A phrase ends on a token behind which a value is complete. -/
theorem Phrase.getLast_endsValue {k : Category} {ts : List Token} (h : Phrase k ts) :
    ∃ front t, ts = front ++ [t] ∧ t.endsValue = true := by
  induction h with
  | number literal => exact ⟨[], _, rfl, rfl⟩
  | constant c => exact ⟨[], _, rfl, rfl⟩
  | group _ _ => exact ⟨_, _, rfl, rfl⟩
  | application f _ _ => exact ⟨_, _, rfl, rfl⟩
  | single _ ih => exact ih
  | @chain p op e _ _ _ ih =>
      obtain ⟨front, t, rfl, ht⟩ := ih
      exact ⟨p ++ .operator op :: front, t, by simp, ht⟩

/-! ## Nesting -/

theorem parenBalance_append (as bs : List Token) :
    parenBalance (as ++ bs) = bs.foldl depthAfter (parenBalance as) :=
  List.foldl_append

theorem parenBalance_concat (ts : List Token) (t : Token) :
    parenBalance (ts ++ [t]) = depthAfter (parenBalance ts) t := by
  rw [parenBalance_append]; rfl

/-- A phrase leaves the nesting depth as it found it. -/
theorem Phrase.depth {k : Category} {ts : List Token} (h : Phrase k ts) :
    ∀ d, ts.foldl depthAfter d = d := by
  induction h with
  | number literal => intro d; rfl
  | constant c => intro d; rfl
  | group _ ih => intro d; simp [depthAfter, ih]
  | application f _ ih => intro d; simp [depthAfter, ih]
  | single _ ih => exact ih
  | chain op _ _ ihp ihe => intro d; simp [depthAfter, ihp, ihe]

/-! ## Beginnings, left to right -/

/-- What stands in front of a value: `d` groups are open, and every operator has
its left operand. -/
inductive Opened : Nat → List Token → Prop
  | start : Opened 0 []
  | group {d ts} : Opened d ts → Opened (d + 1) (ts ++ [.openParen])
  | application {d ts} (f : Func) : Opened d ts →
      Opened (d + 1) (ts ++ [.function f, .openParen])
  | operand {d ts e} (op : Operator) : Opened d ts → Phrase .expression e →
      Opened d (ts ++ e ++ [.operator op])

/-- A closing paren makes a primary of everything back to the paren it closes. The
induction is on the beginning: operands in front of the expression join it until
the paren is reached. -/
theorem Opened.close {d' : Nat} {ts e : List Token} (h : Opened d' ts)
    (he : Phrase .expression e) {d : Nat} (hd : d' = d + 1) :
    ∃ front e', Opened d front ∧ Phrase .expression e' ∧
      ts ++ e ++ [.closeParen] = front ++ e' := by
  induction h generalizing e with
  | start => cases hd
  | @group d₀ ts₀ h₀ _ =>
      -- the paren to close: it makes a group of the expression
      obtain rfl : d₀ = d := Nat.succ.inj hd
      exact ⟨ts₀, _, h₀, .single (.group he), by simp⟩
  | @application d₀ ts₀ f h₀ _ =>
      -- the same paren with a function in front of it
      obtain rfl : d₀ = d := Nat.succ.inj hd
      exact ⟨ts₀, _, h₀, .single (.application f he), by simp⟩
  | operand op _ he₀ ih =>
      -- not yet at the paren: the operand becomes part of the expression
      obtain ⟨front, e', hfront, he', heq⟩ := ih (he₀.join op he) hd
      exact ⟨front, e', hfront, he', by rw [← heq]; simp⟩

/-- Where no group is open the expression behind a beginning completes it. -/
theorem Opened.expression_of_closed {d : Nat} {ts e : List Token} (h : Opened d ts)
    (he : Phrase .expression e) (hd : d = 0) : Phrase .expression (ts ++ e) := by
  induction h generalizing e with
  | start => exact he
  | group _ _ => cases hd
  | application _ _ _ => cases hd
  | operand op _ he₀ ih =>
      have hjoined := ih (he₀.join op he) hd
      simpa using hjoined

/-- A beginning with an expression behind it and every open group closed is an
expression. -/
theorem Opened.complete {d : Nat} {ts e : List Token} (h : Opened d ts)
    (he : Phrase .expression e) :
    Phrase .expression (ts ++ e ++ List.replicate d .closeParen) := by
  induction d generalizing ts e with
  | zero => simpa using h.expression_of_closed he rfl
  | succ d ih =>
      obtain ⟨front, e', hfront, he', heq⟩ := h.close he rfl
      have hrest := ih hfront he'
      rw [← heq] at hrest
      simpa [List.replicate_succ] using hrest

/-! ## Beginnings, latest token first -/

/-- What has been entered, the latest token first: the number of open groups and
whether a value is complete. A function is never without its paren. -/
inductive Entered : Nat → Bool → List Token → Prop
  | start : Entered 0 false []
  | number {d ts} (literal : List Char) : Entered d false ts →
      Entered d true (.number literal :: ts)
  | constant {d ts} (c : Constant) : Entered d false ts → Entered d true (.constant c :: ts)
  | operator {d ts} (op : Operator) : Entered d true ts → Entered d false (.operator op :: ts)
  | openParen {d ts} : Entered d false ts → Entered (d + 1) false (.openParen :: ts)
  | function {d ts} (f : Func) : Entered d false ts →
      Entered (d + 1) false (.openParen :: .function f :: ts)
  | closeParen {d ts} : Entered (d + 1) true ts → Entered d true (.closeParen :: ts)

/-- The depth is the number of groups left open. -/
theorem Entered.parenBalance {d : Nat} {b : Bool} {ts : List Token} (h : Entered d b ts) :
    parenBalance ts.reverse = d := by
  induction h with
  | start => rfl
  | number literal _ ih => simp [parenBalance_concat, depthAfter, ih]
  | constant c _ ih => simp [parenBalance_concat, depthAfter, ih]
  | operator op _ ih => simp [parenBalance_concat, depthAfter, ih]
  | openParen _ ih => simp [parenBalance_concat, depthAfter, ih]
  | function f _ ih =>
      rw [List.reverse_cons, List.reverse_cons, parenBalance_concat, parenBalance_concat, ih]
      rfl
  | closeParen _ ih => simp [parenBalance_concat, depthAfter, ih]

/-- What is entered lacks a value, or it is a beginning that lacks one with an
expression behind it. -/
theorem Entered.opened {d : Nat} {b : Bool} {ts : List Token} (h : Entered d b ts) :
    if b then ∃ front e, ts.reverse = front ++ e ∧ Opened d front ∧ Phrase .expression e
    else Opened d ts.reverse := by
  induction h with
  | start => exact .start
  | @number d ts literal _ ih =>
      exact ⟨ts.reverse, [.number literal], by simp, ih, .single (.number literal)⟩
  | @constant d ts c _ ih =>
      exact ⟨ts.reverse, [.constant c], by simp, ih, .single (.constant c)⟩
  | operator op _ ih =>
      obtain ⟨front, e, heq, hfront, he⟩ := ih
      have hop := hfront.operand op he
      simpa [heq] using hop
  | openParen _ ih => simpa using Opened.group ih
  | function f _ ih => simpa using Opened.application f ih
  | closeParen _ ih =>
      -- the beginning in front of the expression has a group open, as the depth shows
      obtain ⟨front, e, heq, hfront, he⟩ := ih
      obtain ⟨front', e', hfront', he', heq'⟩ := hfront.close he rfl
      exact ⟨front', e', by rw [List.reverse_cons, heq, heq'], hfront', he'⟩

/-- Entered tokens with a complete value become an expression when their groups are
closed. -/
theorem Entered.expression {d : Nat} {ts : List Token} (h : Entered d true ts) :
    Phrase .expression (ts.reverse ++ List.replicate d .closeParen) := by
  obtain ⟨front, e, heq, hfront, he⟩ := h.opened
  rw [heq]
  exact hfront.complete he

theorem Entered.headEndsValue {d : Nat} {b : Bool} {ts : List Token} (h : Entered d b ts) :
    ∀ t ∈ ts.head?, t.endsValue = b := by
  cases h <;> simp [Token.endsValue]

/-! ## Completion -/

/-- Completion takes off the dangling tail and closes what is open. -/
theorem finalize_eq (ts : List Token) :
    finalize ts =
      if (ts.rdropWhile Token.isDangling).isEmpty then
        .error (.malformedInput .nothingToEvaluate)
      else .ok (ts.rdropWhile Token.isDangling ++
        List.replicate (parenBalance (ts.rdropWhile Token.isDangling)) .closeParen) :=
  rfl

/-- Completion fails exactly where every token dangles. -/
theorem finalize_eq_error_iff {ts : List Token} {e : CalcError} :
    finalize ts = .error e ↔
      (∀ t ∈ ts, t.isDangling = true) ∧ e = .malformedInput .nothingToEvaluate := by
  rw [finalize_eq, ← List.rdropWhile_eq_nil_iff]
  by_cases h : ts.rdropWhile Token.isDangling = []
  · simp [h, eq_comm]
  · simp [h]

/-- Completion takes off only what dangles. -/
theorem mem_rdropWhile_of_not_dangling {ts : List Token} {t : Token} (ht : t.isDangling = false)
    (h : t ∈ ts) : t ∈ ts.rdropWhile Token.isDangling := by
  induction ts using List.reverseRecOn with
  | nil => cases h
  | append_singleton front last ih =>
      by_cases hlast : last.isDangling = true
      · rw [List.rdropWhile_concat_pos _ _ _ hlast]
        rcases List.mem_append.mp h with hfront | hsame
        · exact ih hfront
        · rw [List.mem_singleton.mp hsame, hlast] at ht
          cases ht
      · rw [List.rdropWhile_concat_neg _ _ _ hlast]
        exact h

/-- A completed expression has the numbers that were entered. -/
theorem number_mem_finalize {ts us : List Token} (h : finalize ts = .ok us)
    {literal : List Char} : .number literal ∈ us ↔ .number literal ∈ ts := by
  rw [finalize_eq] at h
  split at h
  · cases h
  · obtain rfl := Except.ok.inj h
    constructor
    · intro hl
      rcases List.mem_append.mp hl with hl | hl
      · exact (List.rdropWhile_prefix Token.isDangling ts).subset hl
      · exact absurd (List.eq_of_mem_replicate hl) (by simp)
    · intro hl
      exact List.mem_append_left _ (mem_rdropWhile_of_not_dangling rfl hl)

/-- Taking off the dangling tail leaves nothing or goes back to a complete value. -/
theorem Entered.dropDangling {d : Nat} {b : Bool} {ts : List Token} (h : Entered d b ts) :
    ts.dropWhile Token.isDangling = [] ∨
      ∃ d', Entered d' true (ts.dropWhile Token.isDangling) := by
  induction h with
  | start => exact .inl rfl
  | number literal h _ => exact .inr ⟨_, .number literal h⟩
  | constant c h _ => exact .inr ⟨_, .constant c h⟩
  | operator op _ ih => exact ih
  | openParen _ ih => exact ih
  | function f _ ih => exact ih
  | closeParen h _ => exact .inr ⟨_, .closeParen h⟩

/-- Completing what was entered gives an expression. -/
theorem Entered.finalize_expression {d : Nat} {b : Bool} {ts us : List Token}
    (h : Entered d b ts) (hus : finalize ts.reverse = .ok us) : Phrase .expression us := by
  rw [finalize_eq, List.rdropWhile_reverse] at hus
  rcases h.dropDangling with hnil | ⟨d', hkept⟩
  · simp [hnil] at hus
  · split at hus
    · cases hus
    · obtain rfl := Except.ok.inj hus
      rw [hkept.parenBalance]
      exact hkept.expression

/-- Behind a complete value there is no dangling tail. -/
theorem rdropWhile_of_endsValue (front : List Token) {t : Token} (ht : t.endsValue = true) :
    (front ++ [t]).rdropWhile Token.isDangling = front ++ [t] :=
  List.rdropWhile_concat_neg _ _ _ (by simp [Token.isDangling_eq_not_endsValue, ht])

/-- Tokens that end with a value and leave no group open are complete already. -/
theorem finalize_of_closed {front : List Token} {t : Token} (ht : t.endsValue = true)
    (hclosed : parenBalance (front ++ [t]) = 0) : finalize (front ++ [t]) = .ok (front ++ [t]) := by
  rw [finalize_eq, rdropWhile_of_endsValue front ht, hclosed]
  simp

/-- An expression is complete already. -/
theorem Phrase.finalize_self {ts : List Token} (h : Phrase .expression ts) :
    finalize ts = .ok ts := by
  obtain ⟨front, t, rfl, ht⟩ := h.getLast_endsValue
  exact finalize_of_closed ht (h.depth 0)

/-! ## Adjacency -/

/-- A value may begin with the token. -/
def Token.StartsValue : Token → Prop
  | .number _ | .constant _ | .function _ | .openParen => True
  | .operator _ | .closeParen => False

/-- The second token may stand right behind the first. -/
def Token.MayPrecede : Token → Token → Prop
  | .operator _, t | .openParen, t => t.StartsValue
  | .number _, t | .constant _, t | .closeParen, t => t.isOperator = true ∨ t = .closeParen
  | .function _, t => t = .openParen

/-- The rules for a beginning of an infix expression: which token stands first, which
stand next to each other, that a function is not the last, and that no group is
closed before it is opened. -/
structure InfixPrefix (ts : List Token) : Prop where
  first : ∀ t ∈ ts.head?, t.StartsValue
  adjacent : ts.IsChain Token.MayPrecede
  last : ∀ t ∈ ts.getLast?, t.isFunction = false
  nested : ∀ front, front <+: ts → front.count .closeParen ≤ front.count .openParen

/-- What stands last leaves the groups open that are counted, whatever the order of
counting. -/
theorem Entered.count {d : Nat} {b : Bool} {ts : List Token} (h : Entered d b ts) :
    ts.count .closeParen + d = ts.count .openParen := by
  induction h with
  | start => rfl
  | number literal _ ih => simpa using ih
  | constant c _ ih => simpa using ih
  | operator op _ ih => simpa using ih
  | openParen _ ih => simp; omega
  | function f _ ih => simp; omega
  | closeParen _ ih => simp; omega

theorem Entered.head_not_function {d : Nat} {b : Bool} {ts : List Token}
    (h : Entered d b ts) : ∀ t ∈ ts.head?, t.isFunction = false := by
  cases h <;> simp [Token.isFunction]

/-- Behind a complete value an operator or a closing paren may follow, otherwise the
first token of a value. -/
theorem Entered.mayPrecede {d : Nat} {b : Bool} {ts : List Token} (h : Entered d b ts)
    {t : Token} (ht : if b then t.isOperator = true ∨ t = .closeParen else t.StartsValue) :
    ∀ s ∈ ts.head?, s.MayPrecede t := by
  cases h <;> simp_all [Token.MayPrecede]

theorem Entered.first {d : Nat} {b : Bool} {ts : List Token} (h : Entered d b ts) :
    (b = true → ts ≠ []) ∧ ∀ t ∈ ts.getLast?, t.StartsValue := by
  induction h with
  | start => simp
  | @number d ts literal _ ih => cases ts <;> simp_all [Token.StartsValue]
  | @constant d ts c _ ih => cases ts <;> simp_all [Token.StartsValue]
  | @operator d ts op _ ih => cases ts <;> simp_all
  | @openParen d ts _ ih => cases ts <;> simp_all [Token.StartsValue]
  | @function d ts f _ ih => cases ts <;> simp_all [Token.StartsValue]
  | @closeParen d ts _ ih => cases ts <;> simp_all

theorem Entered.adjacent {d : Nat} {b : Bool} {ts : List Token} (h : Entered d b ts) :
    ts.IsChain fun t s => s.MayPrecede t := by
  induction h with
  | start => exact .nil
  | number literal h ih => exact List.isChain_cons.mpr ⟨h.mayPrecede trivial, ih⟩
  | constant c h ih => exact List.isChain_cons.mpr ⟨h.mayPrecede trivial, ih⟩
  | operator op h ih => exact List.isChain_cons.mpr ⟨h.mayPrecede (.inl rfl), ih⟩
  | openParen h ih => exact List.isChain_cons.mpr ⟨h.mayPrecede trivial, ih⟩
  | function f h ih =>
      exact .cons_cons rfl (List.isChain_cons.mpr ⟨h.mayPrecede trivial, ih⟩)
  | closeParen h ih => exact List.isChain_cons.mpr ⟨h.mayPrecede (.inr rfl), ih⟩

/-- A token on top of nested ones keeps them nested if the whole is entered. -/
theorem Entered.nested_cons {d : Nat} {b : Bool} {t : Token} {ts : List Token}
    (h : Entered d b (t :: ts))
    (ih : ∀ back, back <:+ ts → back.count .closeParen ≤ back.count .openParen) :
    ∀ back, back <:+ t :: ts → back.count .closeParen ≤ back.count .openParen := by
  intro back hback
  rcases List.suffix_cons_iff.mp hback with rfl | hback
  · have := h.count
    omega
  · exact ih back hback

/-- No group is closed before it is opened, at any time of the entry. -/
theorem Entered.nested {d : Nat} {b : Bool} {ts : List Token} (h : Entered d b ts) :
    ∀ back, back <:+ ts → back.count .closeParen ≤ back.count .openParen := by
  induction h with
  | start => intro back hback; simp [List.suffix_nil.mp hback]
  | number literal h ih => exact (h.number literal).nested_cons ih
  | constant c h ih => exact (h.constant c).nested_cons ih
  | operator op h ih => exact (h.operator op).nested_cons ih
  | openParen h ih => exact h.openParen.nested_cons ih
  | function f h ih =>
      -- a function and its paren come together, so the function alone is looked at here
      apply (h.function f).nested_cons
      intro back hback
      rcases List.suffix_cons_iff.mp hback with rfl | hback
      · have := h.count
        simp
        omega
      · exact ih back hback
  | closeParen h ih => exact h.closeParen.nested_cons ih

/-- **What can be entered is a beginning of an infix expression.** -/
theorem Entered.isInfixPrefix {d : Nat} {b : Bool} {ts : List Token} (h : Entered d b ts) :
    InfixPrefix ts.reverse where
  first := by
    intro t ht
    exact h.first.2 t (by simpa using ht)
  adjacent := List.isChain_reverse.mpr h.adjacent
  last := by
    intro t ht
    exact h.head_not_function t (by simpa using ht)
  nested := by
    intro front hfront
    have hback : front.reverse <:+ ts := by
      rw [← List.reverse_reverse ts]
      exact List.reverse_suffix.mpr hfront
    simpa using h.nested front.reverse hback

end PocketCalc
