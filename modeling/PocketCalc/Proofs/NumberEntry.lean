import PocketCalc.Proofs.FreshStart
import PocketCalc.Proofs.Typing

/-!
# Typing a number

Digits and points are the keys of a number. On an empty entry they come in any order and number:
digits past the limit are refused, points behind the first are ignored, and a point in front of
all digits brings a zero along, which counts as a digit. What stays in the buffer can still be
read off the keys.

The keys fall into two runs with the first point between them. In either run only the digits do
anything, as the first has no point and in the second every point finds one in the buffer; so
one lemma is about both.

* `run_typed` — such a run puts its digits behind the buffer, as far as the limit allows.
* `typed_number_is_kept` — **the number in the buffer, from the keys.**
-/

namespace PocketCalc

/-! ## The digits of the keys -/

/-- The character that a digit key types. -/
def Event.digitChar? : Event → Option Char
  | .digit d => if h : d.toNat < 10 then some (Decimal.Digit.toChar ⟨d.toNat, h⟩) else none
  | _ => none

/-- The digits that keys type, in their order. -/
def typedDigits (keys : List Event) : List Char :=
  keys.filterMap Event.digitChar?

theorem typedDigits_cons (e : Event) (keys : List Event) :
    typedDigits (e :: keys) = e.digitChar?.toList ++ typedDigits keys := by
  cases h : e.digitChar? <;> simp [typedDigits, h]

/-- Whole digits with a point behind them. Without any a zero stands in. -/
def withPoint (whole : List Char) : List Char :=
  if whole = [] then ['0', '.'] else whole ++ ['.']

theorem point_mem_withPoint (whole : List Char) : '.' ∈ withPoint whole := by
  unfold withPoint
  split <;> simp

theorem isDigit_of_digitChar? {e : Event} : ∀ ch ∈ e.digitChar?.toList, ch.isDigit = true := by
  unfold Event.digitChar?
  split
  · split
    · simp [isDigit_toChar]
    · simp
  · simp

theorem isDigit_of_mem_typedDigits {keys : List Event} :
    ∀ ch ∈ typedDigits keys, ch.isDigit = true := by
  intro ch hch
  obtain ⟨e, _, he⟩ := List.mem_filterMap.mp hch
  exact isDigit_of_digitChar? (e := e) ch (by simp [he])

/-- Of digits every character counts. -/
theorem digitCount_of_digits {ds : List Char} (h : ∀ ch ∈ ds, ch.isDigit = true) :
    digitCount ds = ds.length :=
  List.countP_eq_length.mpr h

namespace Calculator

variable {c : Calculator}

/-! ## One key -/

/-- A digit key types its digit if there is room for it. -/
theorem apply_digit_typed (hfresh : c.isResult = false) (hroom : c.lastEndsValue = false)
    (d : UInt8) :
    (c.apply (.digit d)).2 = { c with
      buffer := c.buffer ++
        (Event.digit d).digitChar?.toList.take (c.settings.digitLimit - digitCount c.buffer) } := by
  rw [Calculator.apply, Event.digitChar?]
  split
  · by_cases hlimit : digitCount c.buffer < c.settings.digitLimit
    · obtain ⟨n, hn⟩ : ∃ n, c.settings.digitLimit - digitCount c.buffer = n + 1 :=
        Nat.exists_eq_add_one.mpr (Nat.sub_pos_of_lt hlimit)
      rw [digit_of_fresh hfresh hlimit, beforeNumber_of_room (.inr hroom), hn]
      simp [type]
    · -- the number is full, and the digit is refused
      have hfull : c.settings.digitLimit ≤ digitCount c.openNumber := by
        simpa [openNumber, hfresh] using hlimit
      rw [digit, if_pos hfull, Nat.sub_eq_zero_of_le (Nat.le_of_not_lt hlimit)]
      simp
  · simp

/-- A point behind another is ignored. -/
theorem apply_point_of_mem (hfresh : c.isResult = false) (h : '.' ∈ c.buffer) :
    c.apply .decimalPoint = (.ignored, c) := by
  rw [Calculator.apply, decimalPoint, if_pos (by simp [hfresh, h])]

/-- The first point goes behind the digits. -/
theorem apply_first_point (hfresh : c.isResult = false) (hroom : c.lastEndsValue = false)
    (hdigits : ∀ ch ∈ c.buffer, ch.isDigit = true) :
    c.apply .decimalPoint = (.updated, { c with buffer := withPoint c.buffer }) := by
  by_cases hbuffer : c.buffer = []
  · have hbefore := beforeNumber_of_room (c := c) (.inr hroom)
    simp [Calculator.apply, decimalPoint, startFresh_of_fresh hfresh, hbefore, type, hbuffer,
      withPoint]
  · have hkey : keyOfChar '.' = .decimalPoint := by decide
    rw [← hkey, apply_point hfresh hbuffer hdigits, withPoint, if_neg hbuffer]

/-! ## Keys with one point at most -/

/-- **Digits go behind the buffer up to the limit**, and points change nothing where there is
one already. -/
theorem run_typed (hfresh : c.isResult = false) (hroom : c.lastEndsValue = false)
    {keys : List Event} (hkeys : ∀ e ∈ keys, e.isTyping = true)
    (hpoint : .decimalPoint ∈ keys → '.' ∈ c.buffer) :
    c.run keys = { c with
      buffer := c.buffer ++
        (typedDigits keys).take (c.settings.digitLimit - digitCount c.buffer) } := by
  induction keys generalizing c with
  | nil => simp [Calculator.run, typedDigits]
  | cons e keys ih =>
      obtain ⟨he, hrest⟩ := List.forall_mem_cons.mp hkeys
      rw [run_cons]
      cases e with
      | digit d =>
          rw [apply_digit_typed hfresh hroom, typedDigits_cons]
          have hdigits := isDigit_of_digitChar? (e := .digit d)
          generalize (Event.digit d).digitChar?.toList = typed at hdigits ⊢
          generalize hleft : c.settings.digitLimit - digitCount c.buffer = left
          rw [ih (by exact hfresh) (by exact hroom) hrest
            (fun h => List.mem_append_left _ (hpoint (List.mem_cons_of_mem _ h)))]
          -- what has been typed takes up room that the other digits no longer have
          have htyped : digitCount (typed.take left) = min left typed.length := by
            rw [digitCount_of_digits fun ch hch => hdigits ch (List.mem_of_mem_take hch),
              List.length_take]
          have hlater : c.settings.digitLimit - digitCount (c.buffer ++ typed.take left) =
              left - typed.length := by
            rw [digitCount_append]
            omega
          simp only [hlater, List.take_append, List.append_assoc]
      | decimalPoint =>
          rw [apply_point_of_mem hfresh (hpoint (by simp)), typedDigits_cons]
          exact ih hfresh hroom hrest fun _ => hpoint (by simp)
      | _ => cases he

/-! ## All keys -/

/-- Where a value may be begun the first run of digits begins a number. -/
theorem Ready.run_typed (h : Ready c) {keys : List Event} (hkeys : ∀ e ∈ keys, e.isTyping = true)
    (hpoint : .decimalPoint ∉ keys) :
    c.run keys = { c with buffer := (typedDigits keys).take c.settings.digitLimit } := by
  have hrun := Calculator.run_typed h.fresh h.room hkeys fun hmem => absurd hmem hpoint
  simpa [h.committed, digitCount] using hrun

/-- **The first point parts the keys.** The digits in front of it are typed up to the limit, and
those behind it up to what is left of the limit. -/
theorem Ready.run_typed_point (h : Ready c) {front back : List Event}
    (hkeys : ∀ e ∈ front ++ .decimalPoint :: back, e.isTyping = true)
    (hfront : .decimalPoint ∉ front) :
    let number := withPoint ((typedDigits front).take c.settings.digitLimit)
    c.run (front ++ .decimalPoint :: back) = { c with
      buffer :=
        number ++ (typedDigits back).take (c.settings.digitLimit - digitCount number) } := by
  intro number
  obtain ⟨hbefore, hbehind⟩ := List.forall_mem_append.mp hkeys
  have hdigits : ∀ ch ∈ (typedDigits front).take c.settings.digitLimit, ch.isDigit = true :=
    fun ch hch => isDigit_of_mem_typedDigits ch (List.mem_of_mem_take hch)
  rw [run_append, h.run_typed hbefore hfront, run_cons,
    apply_first_point (by exact h.fresh) (by exact h.room) hdigits]
  exact Calculator.run_typed (c := { c with buffer := number }) h.fresh h.room
    (List.forall_mem_cons.mp hbehind).2 fun _ => point_mem_withPoint _

/-- **A typed number is kept as it was typed.** On a new or cleared calculator digits and points
are pressed in any order. They commit nothing and change the buffer alone. With no point among
the keys it holds the digits up to the limit; else it holds the digits in front of the first
point up to the limit, the point, and the digits behind it up to what is left of the limit. If
there are no digits in front of the point it gets a zero, which counts. -/
theorem typed_number_is_kept {start : Calculator}
    (hstart : start = new start.settings ∨ ∃ c : Calculator, start = (c.apply .clear).2)
    {keys : List Event} (hkeys : ∀ e ∈ keys, e.isTyping = true) :
    let limit := start.settings.digitLimit
    let s := start.run keys
    (s.tokens = [] ∧ s = { start with buffer := s.buffer }) ∧
      (.decimalPoint ∉ keys → s.buffer = (typedDigits keys).take limit) ∧
      ∀ front back, keys = front ++ .decimalPoint :: back → .decimalPoint ∉ front →
        let whole := (typedDigits front).take limit
        (whole ≠ [] → s.buffer = whole ++ '.' :: (typedDigits back).take (limit - whole.length)) ∧
        (whole = [] → s.buffer = '0' :: '.' :: (typedDigits back).take (limit - 1)) := by
  intro limit s
  obtain ⟨hentered, hready⟩ : start.entered = [] ∧ Ready start := by
    rcases hstart with hnew | ⟨c, rfl⟩
    · rw [hnew]
      exact ⟨rfl, ready_new start.settings⟩
    · exact ⟨rfl, rfl, rfl, rfl⟩
  refine ⟨?_, ?_, ?_⟩
  · have hbuffer : s = { start with buffer := s.buffer } := by
      by_cases hpoint : .decimalPoint ∈ keys
      · obtain ⟨front, back, rfl, hfront⟩ := List.eq_append_cons_of_mem hpoint
        simp only [s, hready.run_typed_point hkeys hfront]
      · simp only [s, hready.run_typed hkeys hpoint]
    refine ⟨?_, hbuffer⟩
    rw [hbuffer, tokens, hentered]
    rfl
  · intro hpoint
    simp only [s, hready.run_typed hkeys hpoint]
    rfl
  · rintro front back rfl hfront whole
    have hrun : s.buffer =
        withPoint whole ++ (typedDigits back).take (limit - digitCount (withPoint whole)) :=
      congrArg Calculator.buffer (hready.run_typed_point hkeys hfront)
    refine ⟨?_, ?_⟩
    · intro hwhole
      have hcount : digitCount (withPoint whole) = whole.length := by
        rw [withPoint, if_neg hwhole, digitCount_append, digitCount_of_digits fun ch hch =>
          isDigit_of_mem_typedDigits ch (List.mem_of_mem_take hch)]
        rfl
      rw [hrun, hcount, withPoint, if_neg hwhole, List.append_assoc]
      rfl
    · intro hwhole
      rw [hrun, hwhole]
      rfl

/-- It applies to the keys `12.3.45` with room for four digits, and to `.7.89` on a calculator
that has been cleared and has room for three. -/
theorem typed_number_of_keys :
    let limited := new { maxDigits := some 4 }
    let cleared := (((new { maxDigits := some 3 }).run [.digit 5, .equals]).apply .clear).2
    let whole := [Event.digit 1, .digit 2]
    let later := [Event.digit 3, .decimalPoint, .digit 4, .digit 5]
    let fraction := [Event.digit 7, .decimalPoint, .digit 8, .digit 9]
    ((∀ e ∈ whole ++ .decimalPoint :: later, e.isTyping = true) ∧
        limited = new limited.settings ∧ .decimalPoint ∉ whole ∧ (typedDigits whole).take 4 ≠ [] ∧
        (limited.run (whole ++ .decimalPoint :: later)).buffer = "12.34".toList) ∧
      (∀ e ∈ .decimalPoint :: fraction, e.isTyping = true) ∧
        (∃ c : Calculator, cleared = (c.apply .clear).2) ∧
        (cleared.run (.decimalPoint :: fraction)).buffer = "0.78".toList := by
  intro limited cleared whole later fraction
  have hlimited : limited = new limited.settings := rfl
  have hcleared : ∃ c : Calculator, cleared = (c.apply .clear).2 := ⟨_, rfl⟩
  have hkeys : ∀ e ∈ whole ++ .decimalPoint :: later, e.isTyping = true := by decide
  have hkeys' : ∀ e ∈ .decimalPoint :: fraction, e.isTyping = true := by decide
  have hfront : .decimalPoint ∉ whole := by decide
  have hwhole : (typedDigits whole).take 4 ≠ [] := by decide
  have hnumber := (typed_number_is_kept (.inl hlimited) hkeys).2.2 whole later rfl hfront
  have hnumber' := (typed_number_is_kept (.inr hcleared) hkeys').2.2 [] fraction rfl nofun
  exact ⟨⟨hkeys, hlimited, hfront, hwhole, hnumber.1 hwhole⟩, hkeys', hcleared, hnumber'.2 rfl⟩

end Calculator

end PocketCalc
