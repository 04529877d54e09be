import PocketCalc.Proofs.ExactName

/-!
# Exponential notation rounds

In exponential notation a number is written with one digit in front of the point and a fixed
number of digits behind it, whatever digits it has: zeros are filled in, and digits too many are
rounded off. The text denotes the rounded number also where the carry runs through all the digits
and makes the exponent one larger.

* `exponential_form` — the parts of the text.
* `roundDigits_nines` — nines that are rounded up.
* `exponential_exact` — **what a number in exponential notation denotes.**
-/

namespace PocketCalc.Decimal

/-! ## Nines -/

theorem increment_nines (n : ℕ) :
    increment (List.replicate n 9) = (true, List.replicate n 0) := by
  induction n with
  | zero => rfl
  | succ n ih =>
    rw [List.replicate_succ, increment, ih]
    rfl

/-- Nines that are rounded up become a one and zeros, and the exponent is one larger. -/
theorem roundDigits_nines {ds rest : List Digit} {next : Digit} {n : ℕ}
    (hds : ds = List.replicate (n + 1) 9 ++ next :: rest) (hnext : 5 ≤ next) (e : ℤ) :
    roundDigits ds e (n + 1) = (1 :: List.replicate n 0, e + 1) := by
  have hlength : (List.replicate (n + 1) (9 : Digit)).length = n + 1 := List.length_replicate
  have hdrop : ds.drop (n + 1) = next :: rest := by rw [hds, List.drop_left' hlength]
  have htake : ds.take (n + 1) = List.replicate (n + 1) 9 := by rw [hds, List.take_left' hlength]
  have hzeros : (List.replicate (n + 1) (0 : Digit)).take n = List.replicate n 0 := by
    rw [List.take_replicate, Nat.min_eq_left (Nat.le_succ n)]
  simp only [roundDigits, hdrop, htake, increment_nines, if_neg (not_lt.mpr hnext),
    List.take_succ_cons, hzeros]

/-! ## The parts of the text -/

/-- A mantissa has one digit in front of its point. -/
theorem mantissa_cons (d : Digit) (ds : List Digit) : mantissa (d :: ds) = pointed [d] ds := by
  cases ds with
  | nil => rfl
  | cons d' ds => rfl

/-- **The parts of a number in exponential notation** are its rounded digits and exponent. -/
theorem exponential_form (s : Scientific) (places : ℕ) :
    ∃ lead fraction e, roundDigits s.digits s.exponent (places + 1) = (lead :: fraction, e) ∧
      fraction.length = places ∧
      s.exponential places =
        signed s.isNegative (pointed [lead] fraction ++ 'e' :: signedExponent e) := by
  have hlength := length_roundDigits s.digits s.exponent (places + 1)
  have htext : s.exponential places = signed s.isNegative
      (mantissa (roundDigits s.digits s.exponent (places + 1)).1 ++
        'e' :: signedExponent (roundDigits s.digits s.exponent (places + 1)).2) := rfl
  generalize roundDigits s.digits s.exponent (places + 1) = rounded at hlength htext
  obtain ⟨ds, e⟩ := rounded
  obtain ⟨lead, fraction, rfl⟩ := List.exists_cons_of_length_eq_add_one hlength
  exact ⟨lead, fraction, e, rfl, Nat.succ.inj hlength, by rw [htext, mantissa_cons]⟩

/-- Zero keeps its digit, and no other number begins with one. -/
theorem lead_eq_zero_iff {s : Scientific} (h : s.digits = [0] ∨ Leads s.digits) {places : ℕ}
    {lead : Digit} {fraction : List Digit} {e : ℤ}
    (hround : roundDigits s.digits s.exponent (places + 1) = (lead :: fraction, e)) :
    lead = 0 ↔ s.digits = [0] := by
  rcases h with hzero | hleads
  · rw [hzero] at hround ⊢
    have hlead : (0 : Digit) :: List.replicate places 0 = lead :: fraction := by
      simpa [roundDigits] using congrArg Prod.fst hround
    exact iff_of_true (List.cons.inj hlead).1.symm rfl
  · obtain ⟨d, ds, hds, hd⟩ := leads_roundDigits hleads s.exponent (Nat.succ_pos places)
    rw [hround] at hds
    refine iff_of_false ((List.cons.inj hds).1 ▸ hd) ?_
    intro hzero
    obtain ⟨d, ds, hds, hd⟩ := hleads
    rw [hzero] at hds
    exact hd (List.cons.inj hds).1.symm

/-! ## What it denotes -/

/-- **Exponential notation rounds.** Let `s` be the sign, the digits and the exponent that a
finite number is printed with in compact form. In exponential notation it has one digit, which
is not zero unless the number is, and exactly the given number of places. The text denotes the
number rounded to these digits, a half away from zero; nines that are rounded up become a one
and zeros with an exponent that is one larger. -/
theorem exponential_exact (v : Float) (hv : isFinite v = true) (places : ℕ) :
    let s := Scientific.ofFloat v
    (compactText v = s.compact ∧ (s.isNegative = true ↔ v < 0)) ∧
      denoted? (s.exponential places) =
        some (signedNumber s.isNegative (s.roundedMagnitude (places + 1))) ∧
      ∃ lead fraction e,
        s.exponential places =
          signed s.isNegative (pointed [lead] fraction ++ 'e' :: signedExponent e) ∧
        fraction.length = places ∧ (lead = 0 ↔ (v == 0) = true) ∧
        ∀ next rest, s.digits = List.replicate (places + 1) 9 ++ next :: rest → 5 ≤ next →
          lead = 1 ∧ fraction = List.replicate places 0 ∧ e = s.exponent + 1 := by
  intro s
  obtain ⟨hprinted, hdigits⟩ := ofFloat_cases hv
  obtain ⟨lead, fraction, e, hround, hlength, hform⟩ := exponential_form s places
  have hvalue := magnitude_roundDigits s.isNegative s.digits s.exponent (Nat.succ_pos places)
  rw [hround] at hvalue
  have hzero : s.digits = [0] ∨ Leads s.digits :=
    hdigits.imp (fun h => h.2.1) (fun h => h.2.1)
  have hiszero : (v == 0) = true ↔ s.digits = [0] := by
    rcases hdigits with ⟨h0, hds, -⟩ | ⟨h0, hleads, -⟩
    · exact iff_of_true h0 hds
    · refine iff_of_false (by simp [h0]) fun hds => ?_
      have := Scientific.isZero_of_leads hleads
      simp [Scientific.isZero, s, hds] at this
  refine ⟨⟨hprinted, ?_⟩, ?_, lead, fraction, e, hform, hlength, ?_, ?_⟩
  · rcases hdigits with ⟨-, hds, hlt⟩ | ⟨-, hleads, hneg⟩
    · simp [s, Scientific.isNegative, Scientific.isZero, hds, hlt]
    · rw [Scientific.isNegative, Scientific.isZero_of_leads hleads, Bool.not_false, Bool.and_true,
        hneg]
  · rw [hform, ← mantissa_cons, denoted?_exponential s.isNegative (List.cons_ne_nil _ _), hvalue]
    rfl
  · rw [lead_eq_zero_iff hzero hround, hiszero]
  · intro next rest hnines hnext
    rw [roundDigits_nines hnines hnext] at hround
    obtain ⟨hdigits', rfl⟩ := Prod.mk.inj hround
    obtain ⟨rfl, rfl⟩ := List.cons.inj hdigits'
    exact ⟨rfl, rfl, rfl⟩

/-- The carry takes the exponent from minus one to zero. -/
example : Scientific.exponential ⟨true, [9, 9, 6], -1⟩ 1 = "-1.0e+0".toList := by decide

/-- It applies to a number below one whose digits are nines up to the last. -/
theorem exponential_exact_of_nines :
    isFinite (-0.996) = true ∧
      (Scientific.ofFloat (-0.996)).exponential 1 = "-1.0e+0".toList ∧
      denoted? "-1.0e+0".toList =
        some (signedNumber true ((Scientific.ofFloat (-0.996)).roundedMagnitude 2)) := by
  have hfinite : isFinite (-0.996) = true := by decide +kernel
  have htext : (Scientific.ofFloat (-0.996)).exponential 1 = "-1.0e+0".toList := by decide +kernel
  have hsign : (Scientific.ofFloat (-0.996)).isNegative = true := by decide +kernel
  obtain ⟨-, hdenoted, -⟩ := exponential_exact (-0.996) hfinite 1
  rw [htext, hsign] at hdenoted
  exact ⟨hfinite, htext, hdenoted⟩

end PocketCalc.Decimal
