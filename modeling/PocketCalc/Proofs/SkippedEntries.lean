import PocketCalc.Proofs.ExpressionValue

/-!
# Entries without their operands

A postfix sequence need not come from an expression. The machine skips an entry that finds too
few operands, so some of the sequence may never be computed, and values that nothing combines
may stay below the last one. What is skipped depends on how many entries of each kind stand in
front, and on no value.

* `step_cases` — what one entry does: it is skipped and changes nothing, or it is applied.
* `length_stack_run`, `stack_run_eq_nil_iff` — how many values a sequence leaves, and when it
  leaves none.
* `run_applied`, `skipsNone_applied` — the applied entries alone do the same, and all of them
  find their operands.
* `skipped_for_lack_of_operands` — **which entries are skipped, and what the result is**, for
  every sequence.
-/

namespace PocketCalc

variable {α : Type}

namespace Postfix.Item

def isValue : Item α → Bool
  | .value _ => true
  | .operator _ | .function _ => false

def isOperator : Item α → Bool
  | .operator _ => true
  | .value _ | .function _ => false

/-- A sequence holds no value. -/
theorem none_isValue_iff {items : List (Item α)} :
    (∀ i ∈ items, i.isValue = false) ↔ ∀ v, .value v ∉ items := by
  constructor
  · intro h v hv
    cases h _ hv
  · intro h i hi
    cases i with
    | value v => exact absurd hi (h v)
    | operator op => rfl
    | function f => rfl

end Postfix.Item

namespace Machine

open Postfix (Item)

/-! ## One entry -/

instance (m : Machine α) : DecidablePred m.Skips := fun i =>
  match i with
  | .value _ => inferInstanceAs (Decidable False)
  | .function _ => inferInstanceAs (Decidable (m.stack.length < 1))
  | .operator _ => inferInstanceAs (Decidable (m.stack.length < 2))

/-- The machine finds the operands of an entry, uses them up and leaves what it computes. -/
inductive Applies (A : Arithmetic α) : Machine α → Item α → Machine α → Prop
  | value (v : α) {m : Machine α} : Applies A m (.value v) { m with stack := v :: m.stack }
  | function (f : Func) {m : Machine α} {x rest} : m.stack = x :: rest →
      Applies A m (.function f)
        ⟨A.function f x :: rest, m.zeroDivisor || A.invertsZero f x⟩
  | operator (op : Operator) {m : Machine α} {x y rest} : m.stack = y :: x :: rest →
      Applies A m (.operator op)
        ⟨A.operator op x y :: rest, m.zeroDivisor || A.dividesByZero op y⟩

variable (A : Arithmetic α) (m : Machine α)

/-- **One entry** is skipped and changes nothing, or it is applied. -/
theorem step_cases (i : Item α) :
    (m.Skips i ∧ m.step A i = m) ∨ (¬ m.Skips i ∧ Applies A m i (m.step A i)) := by
  obtain ⟨stack, zeroDivisor⟩ := m
  cases i with
  | value v => exact .inr ⟨id, .value v⟩
  | function f =>
      cases stack with
      | nil => exact .inl ⟨Nat.zero_lt_one, rfl⟩
      | cons x rest => exact .inr ⟨by simp [Skips], .function f rfl⟩
  | operator op =>
      cases stack with
      | nil => exact .inl ⟨Nat.zero_lt_two, rfl⟩
      | cons y stack =>
          cases stack with
          | nil => exact .inl ⟨Nat.one_lt_two, rfl⟩
          | cons x rest => exact .inr ⟨by simp [Skips], .operator op rfl⟩

variable {A m} in
/-- A value adds to the stack, and an operator leaves one value of two. -/
theorem Applies.length_stack {i : Item α} {m' : Machine α} (h : Applies A m i m') :
    m'.stack.length + (if i.isOperator then 1 else 0) =
      m.stack.length + (if i.isValue then 1 else 0) := by
  cases h with
  | value v => simp [Item.isValue, Item.isOperator]
  | function f hstack => simp [Item.isValue, Item.isOperator, hstack]
  | operator op hstack => simp [Item.isValue, Item.isOperator, hstack]

variable {m} in
/-- A value is never skipped. -/
theorem Skips.isValue_eq_false {i : Item α} (h : m.Skips i) : i.isValue = false := by
  cases i with
  | value v => exact h.elim
  | operator op => rfl
  | function f => rfl

/-- The stack is empty behind an entry only if it was before and the entry is no value. -/
theorem stack_step_eq_nil_iff (i : Item α) :
    (m.step A i).stack = [] ↔ m.stack = [] ∧ i.isValue = false := by
  rcases m.step_cases A i with ⟨hskip, heq⟩ | ⟨_, happlies⟩
  · rw [heq, hskip.isValue_eq_false]
    simp
  · generalize m.step A i = m' at happlies
    cases happlies with
    | value v => simp [Item.isValue]
    | function f hstack => simp [hstack]
    | operator op hstack => simp [hstack]

/-- The entry finds its operands and divides by zero: it is a quotient with a zero on its right,
or the reciprocal of a zero. -/
def DividesByZero (m : Machine α) : Item α → Prop
  | .value _ => False
  | .function f => f = .inv ∧ ∃ x rest, m.stack = x :: rest ∧ A.isZero x = true
  | .operator op => op = .divide ∧ ∃ y x rest, m.stack = y :: x :: rest ∧ A.isZero y = true

variable {m} in
/-- An entry that is skipped divides by nothing. -/
theorem Skips.not_dividesByZero {i : Item α} (h : m.Skips i) : ¬ m.DividesByZero A i := by
  cases i with
  | value v => exact h.elim
  | function f =>
      rintro ⟨_, x, rest, hstack, _⟩
      rw [Skips, hstack, List.length_cons] at h
      omega
  | operator op =>
      rintro ⟨_, y, x, rest, hstack, _⟩
      rw [Skips, hstack, List.length_cons, List.length_cons] at h
      omega

/-- The machine remembers a zero divisor. -/
theorem zeroDivisor_step (i : Item α) :
    (m.step A i).zeroDivisor = true ↔ m.zeroDivisor = true ∨ m.DividesByZero A i := by
  rcases m.step_cases A i with ⟨hskip, heq⟩ | ⟨_, happlies⟩
  · rw [heq, or_iff_left (hskip.not_dividesByZero A)]
  · generalize m.step A i = m' at happlies
    cases happlies with
    | value v => simp [DividesByZero]
    | function f hstack => simp [DividesByZero, hstack, Arithmetic.invertsZero]
    | operator op hstack => simp [DividesByZero, hstack, Arithmetic.dividesByZero]

/-! ## Sequences -/

/-- The entries of the sequence that are not skipped. -/
def applied (m : Machine α) : List (Item α) → List (Item α)
  | [] => []
  | i :: items =>
    if m.Skips i then (m.step A i).applied items else i :: (m.step A i).applied items

variable {A m}

/-- A skipped entry has no part in what comes. -/
theorem applied_of_skips {i : Item α} (h : m.Skips i) (items : List (Item α)) :
    m.applied A (i :: items) = (m.step A i).applied A items := by
  rw [applied, if_pos h]

theorem applied_of_not_skips {i : Item α} (h : ¬ m.Skips i) (items : List (Item α)) :
    m.applied A (i :: items) = i :: (m.step A i).applied A items := by
  rw [applied, if_neg h]

variable (A m)

/-- **The number of values left**: every value adds one, every applied operator takes one
away. -/
theorem length_stack_run (items : List (Item α)) :
    (run A m items).stack.length + (m.applied A items).countP Item.isOperator =
      m.stack.length + items.countP Item.isValue := by
  induction items generalizing m with
  | nil => rfl
  | cons i items ih =>
      have hrest := ih (m.step A i)
      show (run A (m.step A i) items).stack.length + _ = _
      rcases m.step_cases A i with ⟨hskip, heq⟩ | ⟨happlied, happlies⟩
      · rw [applied_of_skips hskip, List.countP_cons_of_neg (by simp [hskip.isValue_eq_false]),
          hrest, heq]
      · have hstep := happlies.length_stack
        rw [applied_of_not_skips happlied, List.countP_cons, List.countP_cons]
        omega

/-- **A sequence leaves nothing** only on an empty stack and without a value. -/
theorem stack_run_eq_nil_iff (items : List (Item α)) :
    (run A m items).stack = [] ↔ m.stack = [] ∧ ∀ v, .value v ∉ items := by
  rw [← Item.none_isValue_iff]
  induction items generalizing m with
  | nil => simp [run]
  | cons i items ih =>
      show (run A (m.step A i) items).stack = [] ↔ _
      rw [ih, stack_step_eq_nil_iff, and_assoc, List.forall_mem_cons]

/-- The applied entries do what the whole sequence does. -/
theorem run_applied (items : List (Item α)) : run A m (m.applied A items) = run A m items := by
  induction items generalizing m with
  | nil => rfl
  | cons i items ih =>
      have hrest := ih (m.step A i)
      rcases m.step_cases A i with ⟨hskip, heq⟩ | ⟨happlied, _⟩
      · rw [applied_of_skips hskip]
        rw [heq] at hrest ⊢
        show run A m (m.applied A items) = run A (m.step A i) items
        rw [hrest, heq]
      · rw [applied_of_not_skips happlied]
        exact hrest

/-- They find their operands without the skipped ones, too. -/
theorem skipsNone_applied (items : List (Item α)) : m.SkipsNone A (m.applied A items) := by
  induction items generalizing m with
  | nil => trivial
  | cons i items ih =>
      have hrest := ih (m.step A i)
      rcases m.step_cases A i with ⟨hskip, heq⟩ | ⟨happlied, _⟩
      · rw [applied_of_skips hskip]
        rwa [heq] at hrest ⊢
      · rw [applied_of_not_skips happlied]
        exact ⟨happlied, hrest⟩

/-- Somewhere in the sequence an applied entry divides by zero. -/
def MeetsZeroDivisor (items : List (Item α)) : Prop :=
  ∃ front i rest, items = front ++ i :: rest ∧ (run A m front).DividesByZero A i

/-- **A zero divisor that was met is remembered.** -/
theorem zeroDivisor_run (items : List (Item α)) :
    (run A m items).zeroDivisor = true ↔ m.zeroDivisor = true ∨ m.MeetsZeroDivisor A items := by
  induction items generalizing m with
  | nil => simp [run, MeetsZeroDivisor]
  | cons i items ih =>
      show (run A (m.step A i) items).zeroDivisor = true ↔ _
      rw [ih (m.step A i), zeroDivisor_step, or_assoc]
      refine or_congr_right ⟨?_, ?_⟩
      · rintro (hzero | ⟨front, j, rest, rfl, hzero⟩)
        · exact ⟨[], i, items, rfl, hzero⟩
        · exact ⟨i :: front, j, rest, rfl, hzero⟩
      · rintro ⟨front, j, rest, heq, hzero⟩
        cases front with
        | nil =>
            obtain ⟨rfl, rfl⟩ := List.cons.inj heq
            exact .inl hzero
        | cons first front =>
            obtain ⟨rfl, rfl⟩ := List.cons.inj heq
            exact .inr ⟨front, j, rest, rfl, hzero⟩

end Machine

/-! ## The whole evaluation -/

section

open Postfix (Item)

variable {A : Arithmetic α} {items : List (Item α)}

/-- The last value on the stack is the result, once it has been checked. -/
theorem evaluate_of_stack {top : α} {below : List α}
    (h : (Machine.run A {} items).stack = top :: below) :
    evaluate A items = checkFinite A (Machine.run A {} items).zeroDivisor top := by
  simp [evaluate, h]

/-- Values leave a value. -/
theorem exists_top {v : α} (hv : .value v ∈ items) :
    ∃ top below, (Machine.run A {} items).stack = top :: below := by
  apply List.exists_cons_of_ne_nil
  intro hnil
  exact ((Machine.stack_run_eq_nil_iff A {} items).mp hnil).2 v hv

/-- Only a sequence without a value is malformed. -/
theorem evaluate_eq_malformed_iff {cause : Malformed} :
    evaluate A items = .error (.malformedInput cause) ↔
      cause = .noValueLeft ∧ ∀ v, .value v ∉ items := by
  constructor
  · intro herror
    cases hstack : (Machine.run A {} items).stack with
    | nil =>
        simp only [evaluate, hstack, Except.error.injEq, CalcError.malformedInput.injEq] at herror
        exact ⟨herror.symm, ((Machine.stack_run_eq_nil_iff A {} items).mp hstack).2⟩
    | cons top below =>
        -- the check of a value has mathematical errors only
        rw [evaluate_of_stack hstack] at herror
        rcases checkFinite_cases A (Machine.run A {} items).zeroDivisor top with
          ⟨_, hok⟩ | ⟨e, he, hmath⟩
        · rw [hok] at herror
          cases herror
        · rw [he] at herror
          rw [Except.error.inj herror] at hmath
          cases hmath
  · rintro ⟨rfl, hnone⟩
    have hnil := (Machine.stack_run_eq_nil_iff A {} items).mpr ⟨rfl, hnone⟩
    simp [evaluate, hnil]

/-- The machine starts without a zero divisor. -/
theorem zeroDivisor_iff :
    (Machine.run A {} items).zeroDivisor = true ↔ Machine.MeetsZeroDivisor A {} items := by
  rw [Machine.zeroDivisor_run]
  simp

end

open Postfix (Item) in
/-- **Entries are skipped for lack of operands**, whatever the sequence is and whatever its entries
stand for. An entry that is skipped changes nothing, and every other is applied. A function is
skipped where no value stands in front of it, and an operator where the values in front of it are
less than two more than the operators that were applied. Without the skipped entries the sequence
has the same result, and nothing in it is skipped. The sequence is malformed only if it has no
value at all. In any other the last value on the stack is the result if it is finite; if it is
not, the error is a division by zero where one was met, and a domain error elsewhere. -/
theorem skipped_for_lack_of_operands (A : Arithmetic α) (items : List (Item α)) :
    (∀ front i rest, items = front ++ i :: rest →
      let m := Machine.run A {} front
      let m' := Machine.run A {} (front ++ [i])
      (m.Skips i ∧ m' = m) ∨ (¬ m.Skips i ∧ Machine.Applies A m i m')) ∧
    (∀ front f rest, items = front ++ .function f :: rest →
      ((Machine.run A {} front).Skips (.function f) ↔ ∀ v, .value v ∉ front)) ∧
    (∀ front op rest, items = front ++ .operator op :: rest →
      ((Machine.run A {} front).Skips (.operator op) ↔
        (front.countP Item.isValue : Int) - (Machine.applied A {} front).countP Item.isOperator
          < 2)) ∧
    (evaluate A (Machine.applied A {} items) = evaluate A items ∧
      Machine.SkipsNone A {} (Machine.applied A {} items)) ∧
    (∀ cause, evaluate A items = .error (.malformedInput cause) ↔
      cause = .noValueLeft ∧ ∀ v, .value v ∉ items) ∧
    ∀ v, .value v ∈ items →
      ∃ top below, (Machine.run A {} items).stack = top :: below ∧
        (A.isFinite top = true → evaluate A items = .ok top) ∧
        (A.isFinite top = false → Machine.MeetsZeroDivisor A {} items →
          evaluate A items = .error .divisionByZero) ∧
        (A.isFinite top = false → ¬ Machine.MeetsZeroDivisor A {} items →
          evaluate A items = .error .domainError) := by
  refine ⟨?_, ?_, ?_, ⟨?_, ?_⟩, ?_, ?_⟩
  · intro front i rest _
    rw [Machine.run_append]
    exact (Machine.run A {} front).step_cases A i
  · intro front f rest _
    rw [Machine.Skips, Nat.lt_one_iff, List.length_eq_zero_iff, Machine.stack_run_eq_nil_iff]
    simp
  · intro front op rest _
    have hlength := Machine.length_stack_run A {} front
    rw [List.length_nil] at hlength
    rw [Machine.Skips]
    omega
  · rw [evaluate, evaluate, Machine.run_applied]
  · exact Machine.skipsNone_applied A {} items
  · intro cause
    exact evaluate_eq_malformed_iff
  · intro v hv
    obtain ⟨top, below, hstack⟩ := exists_top (A := A) hv
    refine ⟨top, below, hstack, ?_, ?_, ?_⟩
    · intro hfinite
      rw [evaluate_of_stack hstack, checkFinite, if_pos hfinite]
    · intro hfinite hmet
      rw [evaluate_of_stack hstack, checkFinite, if_neg (by simp [hfinite]),
        if_pos (zeroDivisor_iff.mpr hmet)]
    · intro hfinite hnot
      rw [evaluate_of_stack hstack, checkFinite, if_neg (by simp [hfinite]),
        if_neg (mt zeroDivisor_iff.mp hnot)]

/-- It applies to `√ 9 − 0 ÷`, where the root and the difference are skipped and nine is divided
by zero. -/
theorem skipped_root_and_difference :
    let A := Arithmetic.binary64 .degrees
    let items : List (Postfix.Item Float) :=
      [.function .sqrt, .value 9, .operator .subtract, .value 0, .operator .divide]
    (Machine.run A {} []).Skips (.function .sqrt) ∧
      (Machine.run A {} [.function .sqrt, .value 9]).Skips (.operator .subtract) ∧
      ¬ (Machine.run A {} (items.take 4)).Skips (.operator .divide) ∧
      Machine.applied A {} items = [.value 9, .value 0, .operator .divide] ∧
      evaluate A (Machine.applied A {} items) = evaluate A items ∧
      .value 9 ∈ items ∧ Machine.MeetsZeroDivisor A {} items ∧
      evaluate A items = .error .divisionByZero := by
  intro A items
  obtain ⟨-, hfunction, hoperator, ⟨happlied, -⟩, -, hvalue⟩ :=
    skipped_for_lack_of_operands A items
  have hmem : .value 9 ∈ items := by simp [items]
  have hmet : Machine.MeetsZeroDivisor A {} items := by
    refine ⟨items.take 4, .operator .divide, [], rfl, rfl, 0, 9, [], rfl, ?_⟩
    decide +kernel
  obtain ⟨top, below, hstack, -, hzero, -⟩ := hvalue 9 hmem
  have hinfinite : A.isFinite top = false := by
    have hleft : (Machine.run A {} items).stack = [9 / 0] := rfl
    obtain ⟨rfl, -⟩ := List.cons.inj (hleft.symm.trans hstack)
    decide +kernel
  refine ⟨?_, ?_, ?_, ?_, happlied, hmem, hmet, hzero hinfinite hmet⟩
  · exact (hfunction [] .sqrt _ rfl).mpr nofun
  · exact (hoperator [.function .sqrt, .value 9] .subtract _ rfl).mpr (by decide)
  · exact mt (hoperator (items.take 4) .divide _ rfl).mp (by decide)
  · rfl

end PocketCalc
