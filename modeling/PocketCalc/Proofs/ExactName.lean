import PocketCalc.Proofs.DenotedNumber
import PocketCalc.Proofs.RoundedResult

/-!
# The name of a number is exact

The usual text of a number other than zero denotes the number that its shortest digits stand
for, wherever the point and the zeros around it have to be put. It has no zero too many in
front, and what it is read as is the number itself, so that no two numbers share a text.

* `integerDigits` — the digits in front of the point.
* `mark_mem_standard_iff` — which names have an exponent.
* `integerDigits_standard` — a name has the zero alone in front of its point, or none first.
* `ofFloat_cases` — the digits and the sign that a number is printed with.
* `standard_exact` — **what the name of a number denotes and identifies.**
-/

namespace PocketCalc.Decimal

/-- The digits of a number text in front of its point or its exponent. -/
def integerDigits (text : List Char) : List Digit :=
  (takeDigits (takeSign text).2).1

theorem integerDigits_pointed (negative : Bool) {whole fraction : List Digit} (hwhole : whole ≠ [])
    {rest : List Char} (hrest : ∀ c ∈ rest.head?, c.isDigit = false) :
    integerDigits (signed negative (pointed whole fraction ++ rest)) = whole := by
  rw [integerDigits, takeSign_signed negative (pointed_head hwhole rest),
    takeDigits_pointed whole fraction hrest]

namespace Scientific

variable {s : Scientific} (h : Leads s.digits)

include h

/-- **A name has an exponent** if its leading digit stands below `10^-6` or above `10^20`. -/
theorem mark_mem_standard_iff : 'e' ∈ s.standard ↔ ¬ (-6 ≤ s.exponent ∧ s.exponent ≤ 20) := by
  rw [standard_of_leads h]
  split
  · next hrange => exact iff_of_false (not_mem_signed_placePoint _ h.ne_nil _) (not_not.mpr hrange)
  · next hrange =>
    refine iff_of_true ?_ hrange
    rw [signed_append]
    simp

/-- **In front of its point a name has the zero alone**, or digits that do not begin with
one. -/
theorem integerDigits_standard :
    integerDigits s.standard = [0] ∨ Leads (integerDigits s.standard) := by
  have hplaces : ∀ point : ℤ, wholeDigits s.digits point = [0] ∨
      Leads (wholeDigits s.digits point) := by
    intro point
    by_cases hpoint : point ≤ 0
    · exact .inl (if_pos hpoint)
    · exact .inr (wholeDigits_of_pos h (by omega)).1
  rw [standard_of_leads h]
  split
  · have hread := @integerDigits_pointed s.negative (wholeDigits s.digits (s.exponent + 1))
      (fractionDigits s.digits (s.exponent + 1))
      (wholeDigits_ne_nil h.ne_nil (s.exponent + 1)) [] (by simp)
    rw [List.append_nil, ← placePoint_eq h.ne_nil] at hread
    rw [hread]
    exact hplaces _
  · rw [mantissa_eq_placePoint h.ne_nil, placePoint_eq h.ne_nil,
      integerDigits_pointed s.negative (wholeDigits_ne_nil h.ne_nil 1) (by simp)]
    exact hplaces 1

end Scientific

/-! ## The digits of a number -/

/-- A number below zero has a minus sign and is not zero. -/
theorem lt_zero_iff {x : Float} {b : Binary} (h : Parts.ofFloat x = .finite b) :
    x < 0 ↔ b.m ≠ 0 ∧ b.negative = true := by
  have hlt : x < 0 ↔
      Float.Model.UnpackedFloat.lt x.toModel.unpack (0 : Float).toModel.unpack = true :=
    decide_eq_true_iff
  rw [hlt, unpack_toModel, unpack_toModel, h, ofFloat_zero, Parts.unpacked, Parts.unpacked,
    unpacked_of_zero (x := ⟨false, 0, -1074, false⟩) rfl]
  by_cases h0 : b.m = 0
  · rw [unpacked_of_zero h0]
    refine iff_of_false ?_ (fun hand => hand.1 h0)
    cases b.negative <;> exact Bool.false_ne_true
  · rw [unpacked_of_ne h0]
    cases b.negative with
    | false => exact iff_of_false Bool.false_ne_true (fun hand => Bool.false_ne_true hand.2)
    | true => exact iff_of_true rfl ⟨h0, rfl⟩

/-- What a finite number is printed from: the digit zero, or digits that do not begin with a
zero. In compact form it is printed with all of them, and with the sign of the number. -/
theorem ofFloat_cases {x : Float} (hx : isFinite x = true) :
    compactText x = (Scientific.ofFloat x).compact ∧
      (((x == 0) = true ∧ (Scientific.ofFloat x).digits = [0] ∧ ¬ x < 0) ∨
        ((x == 0) = false ∧ Leads (Scientific.ofFloat x).digits ∧
          ((Scientific.ofFloat x).negative = true ↔ x < 0))) := by
  obtain ⟨a, ha⟩ := isFinite_iff.mp hx
  refine ⟨by rw [compactText, withoutDigits?, ha]; rfl, ?_⟩
  rw [beq_zero ha, lt_zero_iff ha, ofFloat_of_finite ha]
  by_cases h0 : a.m = 0
  · left
    rw [Scientific.ofBinary, if_pos h0]
    simp [h0]
  · right
    obtain ⟨hleads, -, hneg, -⟩ := Binary.ofBinary_spec (canonical_of_ofFloat ha) h0
    rw [hneg]
    simp [h0, hleads]

/-- A number other than zero is what its name is read as. -/
theorem readFloat?_standard_ofFloat {x : Float} (hx : isFinite x = true)
    (h0 : (x == 0) = false) : readFloat? (Scientific.ofFloat x).standard = some x := by
  obtain ⟨a, ha⟩ := isFinite_iff.mp hx
  rw [beq_zero ha, decide_eq_false_iff_not] at h0
  rw [ofFloat_of_finite ha]
  exact readFloat?_standard ha h0

/-- **The name of a number is exact.** Let `s` be the sign, the digits and the exponent that a
finite number other than zero is printed with in compact form. Its name denotes exactly
`± d₁.d₂…dₖ · 10^x`, has no exponent if and only if `-6 ≤ x ≤ 20`, and has no superfluous zero
in front. It is read as the number, and no other number has the same name. -/
theorem standard_exact (v : Float) (hv : isFinite v = true) (h0 : (v == 0) = false) :
    let s := Scientific.ofFloat v
    (compactText v = s.compact ∧ Leads s.digits ∧ (s.negative = true ↔ v < 0)) ∧
      denoted? s.standard = some (signedNumber s.negative
        (numeralValue s.digits * 10 ^ (s.exponent + 1 - s.digits.length))) ∧
      ('e' ∉ s.standard ↔ -6 ≤ s.exponent ∧ s.exponent ≤ 20) ∧
      (integerDigits s.standard = [0] ∨ Leads (integerDigits s.standard)) ∧
      readFloat? s.standard = some v ∧
      ∀ w : Float, isFinite w = true → (w == 0) = false → w ≠ v →
        (Scientific.ofFloat w).standard ≠ s.standard := by
  intro s
  obtain ⟨hprinted, ⟨hzero, -, -⟩ | ⟨-, hleads, hneg⟩⟩ := ofFloat_cases hv
  · rw [h0] at hzero
    cases hzero
  have hread := readFloat?_standard_ofFloat hv h0
  refine ⟨⟨hprinted, hleads, hneg⟩, denoted?_standard hleads, ?_,
    s.integerDigits_standard hleads, hread, ?_⟩
  · rw [Scientific.mark_mem_standard_iff hleads, not_not]
  · intro w hw hw0 hne hsame
    -- one text is read as one number
    have hother := readFloat?_standard_ofFloat hw hw0
    rw [hsame, hread] at hother
    exact hne (Option.some.inj hother).symm

/-- It applies to a number with zeros behind the point, and tells it from its neighbour. -/
theorem standard_exact_of_small :
    (isFinite (-2.5e-6) = true ∧ ((-2.5e-6 : Float) == 0) = false) ∧
      (Scientific.ofFloat (-2.5e-6)).standard = "-0.0000025".toList ∧
      readFloat? "-0.0000025".toList = some (-2.5e-6) ∧
      (isFinite (-2.5e-7) = true ∧ ((-2.5e-7 : Float) == 0) = false ∧ (-2.5e-7 : Float) ≠ -2.5e-6) ∧
      (Scientific.ofFloat (-2.5e-7)).standard ≠ "-0.0000025".toList := by
  have hfinite : isFinite (-2.5e-6) = true := by decide +kernel
  have h0 : ((-2.5e-6 : Float) == 0) = false := by decide +kernel
  have hname : (Scientific.ofFloat (-2.5e-6)).standard = "-0.0000025".toList := by decide +kernel
  have hfinite' : isFinite (-2.5e-7) = true := by decide +kernel
  have h0' : ((-2.5e-7 : Float) == 0) = false := by decide +kernel
  have hne : (-2.5e-7 : Float) ≠ -2.5e-6 := by decide +kernel
  obtain ⟨-, -, -, -, hread, hother⟩ := standard_exact (-2.5e-6) hfinite h0
  rw [hname] at hread hother
  exact ⟨⟨hfinite, h0⟩, hname, hread, ⟨hfinite', h0', hne⟩, hother _ hfinite' h0' hne⟩

end PocketCalc.Decimal
