import PocketCalc.Fault
import PocketCalc.Proofs.EventEffects
import PocketCalc.Proofs.RoundedName

/-!
# The range of the formatter

The digits of a floating-point value are few and its exponent is small, so every operation
that writes them is in range. What can leave a range is the count of digits wanted, one more
than a number that the settings choose. Allocation is left out: to be written is to leave none
of these ranges, and a text of more digits than fit into memory is written like any other.

* `small_ofFloat` — the digits and the exponent of a value are below two thousand.
* `standardChecked_eq` — the usual text of a value is always written.
* `exponentialChecked_eq` — a text with an exponent is, where the count of its digits is a word.
* `formatter_in_range` — **a result is written, except in one case, which is a fault.**
* `firstFault?_eq_none` — **with a count that is a word no run of events has a fault.**
-/

namespace PocketCalc.Decimal

/-! ## Operations in range -/

theorem ok_bind {α β : Type} (a : α) (f : α → Checked β) : (Except.ok a >>= f) = f a := rfl

theorem countWord_eq (n : ℕ) :
    countWord n = if n < 2 ^ 64 then .ok n else .error .count := rfl

theorem exponentWord_of_small {e : ℤ} (h : e.natAbs < 2 ^ 31) : exponentWord e = .ok e :=
  if_pos (by simp only [Nat.pow_eq]; omega)

theorem entry_of_lt {ds : List Digit} {i : ℕ} (h : i < ds.length) :
    entry ds i = .ok (ds.get ⟨i, h⟩) := by
  rw [entry, List.getElem?_eq_getElem h]
  rfl

theorem splitFront_of_le {ds : List Digit} {n : ℕ} (h : n ≤ ds.length) :
    splitFront ds n = .ok (ds.take n, ds.drop n) :=
  if_pos h

theorem zerosChecked_of_nonneg {n : ℤ} (h0 : 0 ≤ n) (h : n.natAbs < 2 ^ 31) :
    zerosChecked n = .ok (zeros n.toNat) := by
  rw [zerosChecked, exponentWord_of_small h, ok_bind, if_pos h0]
  rfl

theorem mantissaChecked_of_pos {ds : List Digit} (h : 0 < ds.length) :
    mantissaChecked ds = .ok (mantissa ds) := by
  rw [mantissaChecked, splitFront_of_le h, ok_bind]
  change Except.ok (mantissa (ds.take 1 ++ ds.drop 1)) = _
  rw [List.take_append_drop]

theorem exponentText_of_small {e : ℤ} (h : e.natAbs < 2 ^ 31) :
    exponentText e = .ok (signedExponent e) := by
  rw [exponentText, exponentWord_of_small h, ok_bind, exponentWord_of_small (by omega)]
  rfl

/-! ## Small forms -/

/-- There are few digits, and the exponent is small. -/
structure Scientific.Small (s : Scientific) : Prop where
  proper : s.Proper
  length_lt : s.digits.length < 2000
  exponent_lt : s.exponent.natAbs < 2000

/-- The smallest positive value is above `10^-324`. -/
theorem Binary.lt_leadingPlace {x : Binary} (hx : x.Canonical) (h0 : x.m ≠ 0) :
    -324 < x.leadingPlace := by
  refine (zpow_lt_zpow_iff_right₀ (by norm_num : (1 : ℚ) < 10)).mp ?_
  have hm : (1 : ℚ) ≤ x.m := by exact_mod_cast Nat.one_le_iff_ne_zero.mpr h0
  calc (10 : ℚ) ^ (-324 : ℤ) ≤ 2 ^ (-1074 : ℤ) := by
        rw [zpow_neg, zpow_neg]
        refine inv_anti₀ (by positivity) ?_
        exact_mod_cast (by decide +kernel : 2 ^ 1074 ≤ 10 ^ 324)
    _ ≤ 2 ^ x.q := zpow_le_zpow_right₀ (by norm_num) hx.le_q
    _ ≤ x.m * 2 ^ x.q := le_mul_of_one_le_left (by positivity) hm
    _ < 10 ^ x.leadingPlace := (leadingPlace_bounds h0).2

/-- No digit of a name stands behind the last one of the smallest positive value, written
out exactly. -/
theorem Binary.le_exponent_shortest {x : Binary} (hx : x.Canonical) (h0 : x.m ≠ 0) :
    -1074 ≤ x.shortest.exponent := by
  have hleading := lt_leadingPlace hx h0
  unfold shortest
  cases hfound : (List.range 17).findSome? fun (n : ℕ) => x.onGrid (x.leadingPlace - 1 - n) with
  | none =>
    rw [Option.getD_none, exact]
    split
    · norm_num
    · exact hx.le_q
  | some d =>
    obtain ⟨n, hn, hgrid⟩ := List.exists_of_findSome?_eq_some hfound
    rw [List.mem_range] at hn
    rw [Option.getD_some, (of_onGrid hgrid).1]
    omega

/-- A finite value other than zero has few digits: they stand between the places of the
largest and the smallest one. -/
theorem Binary.small_ofBinary {x : Binary} (hx : x.Canonical) (h0 : x.m ≠ 0) :
    (Scientific.ofBinary x).Small := by
  have hlow := le_exponent_shortest hx h0
  obtain ⟨hleads, -, -, hmagnitude⟩ := ofBinary_spec hx h0
  have hhigh : (Scientific.ofBinary x).exponent < 309 :=
    Scientific.exponent_lt hleads (hmagnitude.trans_lt (hx.lt_overflowFrom x.roundsFrom_shortest))
  have hform : Scientific.ofBinary x = .ofDec x.negative x.shortest := if_neg h0
  have hnumeral := (leads_numeral (coefficient_shortest_ne_zero hx h0)).length_pos
  have htrim := Scientific.length_trim_le (numeral x.shortest.coefficient)
  refine ⟨.inl hleads.ne_nil, ?_, ?_⟩
  all_goals
    rw [hform, Scientific.ofDec] at hhigh ⊢
    simp only at hhigh ⊢
    omega

/-- **The form of every floating-point value is small.** -/
theorem small_ofFloat (x : Float) : (Scientific.ofFloat x).Small := by
  cases hx : Parts.ofFloat x with
  | notANumber =>
    rw [Scientific.ofFloat, hx]
    exact ⟨.inr rfl, by norm_num, by norm_num⟩
  | infinite negative =>
    rw [Scientific.ofFloat, hx]
    exact ⟨.inr rfl, by norm_num, by norm_num⟩
  | finite a =>
    rw [ofFloat_of_finite hx]
    by_cases h0 : a.m = 0
    · rw [Scientific.ofBinary, if_pos h0]
      exact ⟨.inr rfl, by norm_num, by norm_num⟩
    · exact Binary.small_ofBinary (canonical_of_ofFloat hx) h0

/-! ## Notations in range -/

variable {s : Scientific}

/-- Each of the four layouts is written, in its own range of exponents. -/
theorem layoutChecked_eq (h : s.Small) :
    layoutChecked s.digits s.digits.length (s.exponent + 1) =
      .ok (if -6 ≤ s.exponent ∧ s.exponent ≤ 20 then placePoint s.digits (s.exponent + 1)
        else mantissa s.digits ++ 'e' :: signedExponent s.exponent) := by
  have hlength := h.length_lt
  have hexponent := h.exponent_lt
  have hproper : 0 < s.digits.length ∨ s.exponent = 0 :=
    h.proper.imp_left List.length_pos_of_ne_nil
  unfold layoutChecked
  split
  · next hwhole =>
    have hpadding : (s.exponent + 1 - s.digits.length).toNat =
        (s.exponent + 1).toNat - s.digits.length := by omega
    rw [zerosChecked_of_nonneg (by omega) (by omega), ok_bind, if_pos (by omega), placePoint,
      if_neg (by omega), if_pos hwhole.1, hpadding]
    rfl
  · split
    · next hwhole hpoint =>
      rw [splitFront_of_le (by omega), ok_bind, if_pos (by omega), placePoint, if_neg (by omega),
        if_neg (by omega)]
      rfl
    · split
      · next hpoint =>
        have hpadding : (-(s.exponent + 1)).toNat = (s.exponent + 1).natAbs := by omega
        rw [zerosChecked_of_nonneg (by omega) (by omega), ok_bind, if_pos (by omega), placePoint,
          if_pos hpoint.2, hpadding]
        rfl
      · rw [mantissaChecked_of_pos (by omega), ok_bind, add_sub_cancel_right,
          exponentText_of_small (by omega), if_neg (by omega)]
        rfl

/-- **The usual text of a number is always written.** -/
theorem standardChecked_eq (h : s.Small) : s.standardChecked = .ok s.standard := by
  have hlength := h.length_lt
  have hexponent := h.exponent_lt
  unfold Scientific.standardChecked Scientific.standard
  split
  · rfl
  · rw [exponentWord_of_small (by omega), ok_bind, exponentWord_of_small (by omega), ok_bind,
      layoutChecked_eq h]
    rfl

theorem roundDigitsChecked_eq (ds : List Digit) {exponent : ℤ} (h : exponent.natAbs < 2000)
    (wanted : ℕ) :
    roundDigitsChecked ds exponent wanted = .ok (roundDigits ds exponent wanted) := by
  unfold roundDigitsChecked roundDigits
  split
  · next hlong =>
    rw [entry_of_lt hlong, ok_bind, List.drop_eq_getElem_cons hlong]
    simp only [List.get_eq_getElem]
    split
    · rfl
    · cases hincrement : increment (ds.take wanted) with
      | mk carry kept =>
        cases carry with
        | false => rfl
        | true =>
          simp only
          rw [exponentWord_of_small (by omega)]
          rfl
  · next hshort =>
    rw [List.drop_eq_nil_of_le (by omega)]
    rfl

/-- **A text with an exponent** is written where the count of its digits is a word. Only the
ranges are checked: there need not be room for so many digits. -/
theorem exponentialChecked_eq (h : s.Small) (places : ℕ) :
    s.exponentialChecked places =
      if places + 1 < 2 ^ 64 then .ok (s.exponential places) else .error .count := by
  unfold Scientific.exponentialChecked
  rw [countWord_eq]
  split
  · obtain ⟨lead, fraction, e, hround, -, hform⟩ := exponential_form s places
    have hsmall := h.exponent_lt
    have hexponent := roundDigits_exponent s.digits s.exponent (places + 1)
    rw [hround] at hexponent
    simp only at hexponent
    have hmantissa : mantissaChecked (lead :: fraction) = .ok (mantissa (lead :: fraction)) :=
      mantissaChecked_of_pos (Nat.succ_pos _)
    rw [ok_bind, roundDigitsChecked_eq _ hsmall, hround, ok_bind]
    simp only
    rw [hmantissa, ok_bind, exponentText_of_small (by omega), hform, mantissa_cons]
    rfl
  · rfl

end PocketCalc.Decimal

namespace PocketCalc

open Decimal

/-! ## Results -/

namespace NumberFormat

/-- The rounded result gets an exponent for want of room, and the count of its digits, one
more than the settings ask for behind the point, is no word. -/
def Overflows (f : NumberFormat) (rounded : Float) : Prop :=
  f.width < (Scientific.ofFloat rounded).standard.length ∧
    (Parts.ofFloat rounded).atLeast exponentFrom = true ∧ 2 ^ 64 ≤ f.exponentDigits + 1

instance (f : NumberFormat) (rounded : Float) : Decidable (f.Overflows rounded) :=
  inferInstanceAs (Decidable (_ ∧ _ ∧ _))

theorem fitChecked_eq (f : NumberFormat) (rounded : Float) :
    f.fitChecked rounded =
      if f.Overflows rounded then .error .count else .ok (f.fit rounded) := by
  have hsmall := small_ofFloat rounded
  unfold fitChecked fit
  simp only
  rw [standardChecked_eq hsmall, ok_bind]
  by_cases hwidth : (Scientific.ofFloat rounded).standard.length ≤ f.width
  · rw [if_pos hwidth, if_neg fun h => absurd h.1 (by omega), if_pos hwidth]
    rfl
  · rw [if_neg hwidth, if_neg hwidth]
    by_cases hlarge : (Parts.ofFloat rounded).atLeast exponentFrom = true
    · rw [if_pos hlarge, exponentialChecked_eq hsmall, if_pos hlarge]
      by_cases hcount : f.exponentDigits + 1 < 2 ^ 64
      · rw [if_pos hcount, if_neg fun h => absurd h.2.2 (by omega)]
      · rw [if_neg hcount, if_pos ⟨by omega, hlarge, by omega⟩]
    · rw [if_neg hlarge, if_neg hlarge, if_neg fun h => hlarge h.2.1]
      rfl

theorem formatChecked_eq (f : NumberFormat) (x : Float) :
    f.formatChecked x =
      if isFinite x = true ∧ f.Overflows (f.round x) then .error .count
      else .ok (f.format x) := by
  unfold formatChecked format
  cases isFinite x with
  | false => rfl
  | true =>
    rw [if_pos rfl, fitChecked_eq, if_pos rfl]
    by_cases hoverflow : f.Overflows (f.round x)
    · rw [if_pos hoverflow, if_pos ⟨rfl, hoverflow⟩]
      rfl
    · rw [if_neg hoverflow, if_neg fun h => hoverflow h.2]
      rfl

/-- **The formatter stays in range**, for every value and all settings, with one exception. The
usual text of a value is always written. A text with an exponent is written unless the count
of its digits, the one in front of the point included, is no word. So a result is written
unless it is long and large, and the settings ask for that many digits. This is about the
ranges alone. Allocation is left out, so with a smaller count a machine may still have no room
for the digits. -/
theorem formatter_in_range (f : NumberFormat) (x : Float) :
    (Scientific.ofFloat x).standardChecked = .ok (Scientific.ofFloat x).standard ∧
      (∀ places, (Scientific.ofFloat x).exponentialChecked places =
        if places + 1 < 2 ^ 64 then .ok ((Scientific.ofFloat x).exponential places)
        else .error .count) ∧
      f.formatChecked x =
        if isFinite x = true ∧ f.Overflows (f.round x) then .error .count
        else .ok (f.format x) :=
  ⟨standardChecked_eq (small_ofFloat x), exponentialChecked_eq (small_ofFloat x),
    formatChecked_eq f x⟩

/-- The exception occurs: a number of fourteen places on twelve, with as many digits behind
the point as a word counts. -/
theorem formatter_overflows :
    ({ exponentDigits := 2 ^ 64 - 1 } : NumberFormat).formatChecked 1e13 = .error .count := by
  obtain ⟨-, -, hformat⟩ := formatter_in_range { exponentDigits := 2 ^ 64 - 1 } 1e13
  exact hformat.trans (if_pos (by decide +kernel))

end NumberFormat

/-! ## Events -/

namespace Calculator

variable {c : Calculator}

/-- Where the count of digits is a word, no event leaves a range. Whether there is room for the
digits is not asked. -/
theorem fault?_eq_none (h : c.settings.format.exponentDigits + 1 < 2 ^ 64) (e : Event) :
    c.fault? e = none := by
  cases e with
  | equals =>
    unfold fault?
    cases valueOf (.binary64 c.angleUnit) c.expression with
    | error _ => rfl
    | ok value =>
      simp only
      rw [NumberFormat.formatChecked_eq, if_neg fun hfault => absurd hfault.2.2.2 (by omega)]
  | _ => rfl

/-- **No run of events has a fault** where the count of digits is a word. Want of memory is none
of the faults: a count that is a word can still ask for more digits than there is room for. -/
theorem firstFault?_eq_none (h : c.settings.format.exponentDigits + 1 < 2 ^ 64)
    (events : List Event) : c.firstFault? events = none := by
  induction events generalizing c with
  | nil => rfl
  | cons e events ih =>
    have hsettings := (c.apply_effect e).settings_eq
    rw [firstFault?, fault?_eq_none h]
    exact ih (by rw [hsettings]; exact h)

/-- With the greatest word in the settings the product of two short numbers has one. -/
example : (Calculator.new { format := { exponentDigits := 2 ^ 64 - 1 } }).firstFault?
    (List.replicate 7 (.digit 9) ++ .operator .multiply :: List.replicate 7 (.digit 9) ++
      [.equals, .clear]) = some .count := by
  decide +kernel

end Calculator

end PocketCalc
