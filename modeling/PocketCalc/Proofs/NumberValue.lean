import PocketCalc.Proofs.FloatArithmetic
import PocketCalc.Proofs.ResultText
import PocketCalc.Proofs.ScientificForm

/-!
# What a written number reads as

A number is written as digits in front of a point and behind it (`pointed`), with or
without an exponent. It is read as the floating-point number nearest to what the digits
stand for.

* `placePoint_eq`, `mantissa_eq_placePoint` — both notations are of this form.
* `exists_readFloat?_placePoint` — **reading a number without an exponent.**
* `exists_readFloat?_exponential` — **reading a number with one.**
* `readFloat?_standard` — the name of a number is read as this number.
-/

namespace PocketCalc.Decimal

/-! ## Digits -/

/-- Digits are read up to the first other character. -/
theorem takeDigits_spell (ds : List Digit) {rest : List Char}
    (h : ∀ c ∈ rest.head?, c.isDigit = false) : takeDigits (spell ds ++ rest) = (ds, rest) := by
  induction ds with
  | nil =>
    cases rest with
    | nil => rfl
    | cons c rest => exact Stage.takeDigits_other (h c rfl) rest
  | cons d ds ih =>
    have hread : takeDigits (d.toChar :: (spell ds ++ rest)) =
        (d :: (takeDigits (spell ds ++ rest)).1, (takeDigits (spell ds ++ rest)).2) := by
      rw [takeDigits, Digit.ofChar?_toChar]
    rw [ih] at hread
    exact hread

theorem wholeDigits?_natText (n : ℕ) : wholeDigits? (natText n) = some (numeral n) := by
  have htake : takeDigits (spell (numeral n) ++ []) = (numeral n, []) :=
    takeDigits_spell (numeral n) (by simp)
  rw [List.append_nil] at htake
  unfold wholeDigits? natText
  rw [htake]
  split
  · next heq =>
    have := congrArg Prod.fst heq
    exact absurd this (numeralOnto_ne_nil _ _ _)
  · next ds _ heq => rw [(Prod.mk.inj heq).1]
  · next hnil hsome => exact absurd rfl (hsome _)

theorem exponent?_signedExponent (e : ℤ) : exponent? ('e' :: signedExponent e) = some e := by
  unfold exponent? signedExponent
  by_cases he : 0 ≤ e
  · simp only [he, if_true, takeSign, wholeDigits?_natText, true_or, Option.map_some,
      numeralValue_numeral, Option.some.injEq, Bool.false_eq_true, if_false]
    omega
  · simp only [he, if_true, if_false, takeSign, wholeDigits?_natText, true_or, Option.map_some,
      numeralValue_numeral, Option.some.injEq]
    omega

/-! ## Numbers -/

/-- Digits with a point among them, which stands only in front of further digits. -/
def pointed (whole fraction : List Digit) : List Char :=
  if fraction = [] then spell whole else spell whole ++ '.' :: spell fraction

variable {whole fraction : List Digit}

/-- The digits in front of the point are read up to it. -/
theorem takeDigits_pointed (whole fraction : List Digit) {rest : List Char}
    (hrest : ∀ c ∈ rest.head?, c.isDigit = false) :
    takeDigits (pointed whole fraction ++ rest) =
      (whole, if fraction = [] then rest else '.' :: spell fraction ++ rest) := by
  unfold pointed
  split
  · exact takeDigits_spell whole hrest
  · rw [List.append_assoc]
    exact takeDigits_spell whole (by simp)

/-- A number without its sign is read part by part. -/
theorem parseUnsigned?_pointed (negative : Bool) (hwhole : whole ≠ []) {rest : List Char}
    (hrest : ∀ c ∈ rest.head?, c.isDigit = false ∧ c ≠ '.') :
    Literal.parseUnsigned? negative (pointed whole fraction ++ rest) =
      (exponent? rest).map fun e => .number negative whole fraction e := by
  have hfront := takeDigits_pointed whole fraction fun c hc => (hrest c hc).1
  have hfraction : takeFraction (if fraction = [] then rest else '.' :: spell fraction ++ rest) =
      (fraction, rest) := by
    split
    · next hnil =>
      rw [hnil]
      unfold takeFraction
      split
      · next cs => exact absurd rfl (hrest '.' rfl).2
      · rfl
    · exact takeDigits_spell fraction fun c hc => (hrest c hc).1
  have hnames : lowered (pointed whole fraction ++ rest) ≠ "inf".toList ∧
      lowered (pointed whole fraction ++ rest) ≠ "infinity".toList ∧
      lowered (pointed whole fraction ++ rest) ≠ "nan".toList := by
    obtain ⟨d, ds, rfl⟩ := List.exists_cons_of_ne_nil hwhole
    have hcons : ∃ cs, pointed (d :: ds) fraction ++ rest = d.toChar :: cs := by
      unfold pointed
      split
      · exact ⟨_, rfl⟩
      · exact ⟨_, rfl⟩
    obtain ⟨cs, hcs⟩ := hcons
    rw [hcs]
    exact Stage.lowered_ne (isDigit_toChar d) cs
  obtain ⟨hinf, hinfinity, hnan⟩ := hnames
  simp only [Literal.parseUnsigned?, hinf, hinfinity, hnan, or_self, if_false, hfront, hfraction,
    hwhole, false_and]

theorem signed_append (negative : Bool) (front rest : List Char) :
    signed negative (front ++ rest) = signed negative front ++ rest := by
  cases negative <;> rfl

theorem takeSign_signed (negative : Bool) {text : List Char}
    (h : ∀ c ∈ text.head?, c.isDigit = true) :
    takeSign (signed negative text) = (negative, text) := by
  cases negative with
  | true => rfl
  | false =>
    cases text with
    | nil => rfl
    | cons c text =>
      obtain ⟨hplus, hminus, -⟩ := ne_of_isDigit (h c rfl)
      simp [signed, takeSign, hplus, hminus]

theorem pointed_head (hwhole : whole ≠ []) (rest : List Char) :
    ∀ c ∈ (pointed whole fraction ++ rest).head?, c.isDigit = true := by
  obtain ⟨d, ds, rfl⟩ := List.exists_cons_of_ne_nil hwhole
  unfold pointed
  split <;> simp [spell, isDigit_toChar]

/-- A written number is a literal with its sign and its digits. -/
theorem parse?_pointed (negative : Bool) (hwhole : whole ≠ []) {rest : List Char} {e : ℤ}
    (hrest : ∀ c ∈ rest.head?, c.isDigit = false ∧ c ≠ '.') (he : exponent? rest = some e) :
    Literal.parse? (signed negative (pointed whole fraction ++ rest)) =
      some (.number negative whole fraction e) := by
  unfold Literal.parse?
  rw [takeSign_signed negative (pointed_head hwhole rest)]
  simp only [parseUnsigned?_pointed negative hwhole hrest, he, Option.map_some]

/-- It is read as the nearest floating-point number. -/
theorem readFloat?_pointed (negative : Bool) (hwhole : whole ≠ []) {rest : List Char} {e : ℤ}
    (hrest : ∀ c ∈ rest.head?, c.isDigit = false ∧ c ≠ '.') (he : exponent? rest = some e) :
    readFloat? (signed negative (pointed whole fraction ++ rest)) =
      some (Literal.applySign negative
        (Literal.nearest (numeralValue (whole ++ fraction)) (e - fraction.length))) := by
  unfold readFloat?
  rw [parse?_pointed negative hwhole hrest he]
  rfl

theorem rounds_applySign (negative : Bool) {x : Float} {v : ℚ}
    (h : (Parts.ofFloat x).Rounds false v) :
    (Parts.ofFloat (Literal.applySign negative x)).Rounds negative v := by
  cases negative with
  | false => exact h
  | true =>
    change (Parts.ofFloat (-x)).Rounds true v
    cases hx : Parts.ofFloat x with
    | notANumber => rw [hx] at h; exact h.elim
    | infinite n =>
      rw [hx] at h
      rw [ofFloat_neg_infinite hx, h.1]
      exact ⟨rfl, h.2⟩
    | finite b =>
      rw [hx] at h
      rw [ofFloat_neg hx]
      exact ⟨congrArg not h.1, h.2⟩

/-! ## The two notations -/

theorem spell_append (as bs : List Digit) : spell (as ++ bs) = spell as ++ spell bs :=
  List.map_append

theorem spell_replicate_zero (k : ℕ) : spell (List.replicate k 0) = zeros k :=
  List.map_replicate

/-- Where the digits stand: in front of the point and behind it. -/
def wholeDigits (ds : List Digit) (point : ℤ) : List Digit :=
  if point ≤ 0 then [0]
  else if (ds.length : ℤ) ≤ point then ds ++ List.replicate (point.toNat - ds.length) 0
  else ds.take point.toNat

def fractionDigits (ds : List Digit) (point : ℤ) : List Digit :=
  if point ≤ 0 then List.replicate point.natAbs 0 ++ ds
  else if (ds.length : ℤ) ≤ point then []
  else ds.drop point.toNat

theorem placePoint_eq {ds : List Digit} (h : ds ≠ []) (point : ℤ) :
    placePoint ds point = pointed (wholeDigits ds point) (fractionDigits ds point) := by
  unfold placePoint wholeDigits fractionDigits
  split
  · rw [pointed, if_neg (by simp [h]), spell_append, spell_replicate_zero]
    rfl
  · split
    · rw [pointed, if_pos rfl, spell_append, spell_replicate_zero]
    · next hlength =>
      rw [pointed, if_neg]
      simp [List.drop_eq_nil_iff]
      omega

theorem wholeDigits_ne_nil {ds : List Digit} (h : ds ≠ []) (point : ℤ) :
    wholeDigits ds point ≠ [] := by
  unfold wholeDigits
  split
  · simp
  · split
    · simp [h]
    · simp [List.take_eq_nil_iff, h]
      omega

/-- Digits in front of a point and behind it, in their places. -/
theorem pointed_eq_placePoint {whole : List Digit} (h : whole ≠ []) (fraction : List Digit) :
    pointed whole fraction = placePoint (whole ++ fraction) whole.length := by
  have hpos := List.length_pos_of_ne_nil h
  have hpoint : ¬ (whole.length : ℤ) ≤ 0 := by omega
  rw [placePoint_eq (by simp [h]), wholeDigits, fractionDigits]
  simp only [if_neg hpoint]
  by_cases hnil : fraction = []
  · subst hnil
    simp
  · have hlong := List.length_pos_of_ne_nil hnil
    have hfraction : ¬ ((whole ++ fraction).length : ℤ) ≤ whole.length := by
      rw [List.length_append]
      omega
    simp only [if_neg hfraction]
    simp

theorem wholeDigits_of_pos {ds : List Digit} (h : Leads ds) {point : ℤ} (hpos : 0 < point) :
    Leads (wholeDigits ds point) ∧ (wholeDigits ds point).length = point.toNat := by
  unfold wholeDigits
  rw [if_neg (by omega)]
  split
  · refine ⟨h.append _, ?_⟩
    rw [List.length_append, List.length_replicate]
    omega
  · refine ⟨h.take (by omega), ?_⟩
    rw [List.length_take]
    omega

/-- Digits in their places stand for their number times a power of ten. -/
theorem value_placedDigits (ds : List Digit) (point : ℤ) :
    (numeralValue (wholeDigits ds point ++ fractionDigits ds point) : ℚ) *
        10 ^ (-((fractionDigits ds point).length : ℤ)) =
      numeralValue ds * 10 ^ (point - ds.length) := by
  unfold wholeDigits fractionDigits
  split
  · have hvalue : numeralValue ([0] ++ (List.replicate point.natAbs 0 ++ ds)) =
        numeralValue ds := by
      rw [← List.append_assoc, numeralValue_append,
        show [0] ++ List.replicate point.natAbs 0 = List.replicate (point.natAbs + 1) (0 : Digit)
          from rfl, numeralValue_replicate_zero, zero_mul, zero_add]
    have hplaces : -((point.natAbs + ds.length : ℕ) : ℤ) = point - ds.length := by omega
    rw [hvalue, List.length_append, List.length_replicate, hplaces]
  · split
    · rw [List.append_nil, numeralValue_append_zeros]
      push_cast
      rw [List.length_nil, Nat.cast_zero, neg_zero, zpow_zero, mul_one, ← zpow_natCast]
      congr 2
      omega
    · rw [List.take_append_drop, List.length_drop]
      congr 2
      omega

/-- A text without an exponent is read as the nearest number. -/
theorem exists_readFloat?_placePoint (negative : Bool) {ds : List Digit} (h : ds ≠ [])
    (point : ℤ) :
    ∃ x, readFloat? (signed negative (placePoint ds point)) = some x ∧
      (Parts.ofFloat x).Rounds negative (numeralValue ds * 10 ^ (point - ds.length)) := by
  have hread := @readFloat?_pointed (wholeDigits ds point) (fractionDigits ds point) negative
    (wholeDigits_ne_nil h point) [] 0 (by simp) rfl
  rw [List.append_nil, ← placePoint_eq h, zero_sub] at hread
  refine ⟨_, hread, rounds_applySign negative ?_⟩
  rw [← value_placedDigits]
  exact rounds_nearest _ _

theorem mantissa_eq_placePoint {ds : List Digit} (h : ds ≠ []) : mantissa ds = placePoint ds 1 := by
  match ds with
  | [] => exact absurd rfl h
  | [d] => rfl
  | d :: d' :: ds =>
    have hlong : ¬ ((d :: d' :: ds).length : ℤ) ≤ 1 := by simp
    rw [placePoint, if_neg (by norm_num), if_neg hlong]
    rfl

/-- What the digits of a mantissa stand for with an exponent. -/
theorem magnitude_mantissa (negative : Bool) (ds : List Digit) (e : ℤ) :
    Scientific.magnitude ⟨negative, ds, e⟩ =
      numeralValue (wholeDigits ds 1 ++ fractionDigits ds 1) *
        10 ^ (e - (fractionDigits ds 1).length) := by
  have hten : (10 : ℚ) ≠ 0 := by norm_num
  rw [sub_eq_neg_add, zpow_add₀ hten, ← mul_assoc, value_placedDigits, mul_assoc, ← zpow_add₀ hten]
  unfold Scientific.magnitude
  congr 2
  ring

/-- And a text with one. -/
theorem exists_readFloat?_exponential (negative : Bool) {ds : List Digit} (h : ds ≠ []) (e : ℤ) :
    ∃ x, readFloat? (signed negative (mantissa ds ++ 'e' :: signedExponent e)) = some x ∧
      (Parts.ofFloat x).Rounds negative (Scientific.magnitude ⟨negative, ds, e⟩) := by
  have hread := @readFloat?_pointed (wholeDigits ds 1) (fractionDigits ds 1) negative
    (wholeDigits_ne_nil h 1) ('e' :: signedExponent e) e (by simp) (exponent?_signedExponent e)
  rw [← placePoint_eq h, ← mantissa_eq_placePoint h] at hread
  refine ⟨_, hread, rounds_applySign negative ?_⟩
  rw [magnitude_mantissa]
  exact rounds_nearest _ _

theorem Scientific.exists_readFloat?_standard {s : Scientific} (h : Leads s.digits) :
    ∃ x, readFloat? s.standard = some x ∧ (Parts.ofFloat x).Rounds s.negative s.magnitude := by
  rw [standard_of_leads h]
  split
  · exact exists_readFloat?_placePoint s.negative h.ne_nil (s.exponent + 1)
  · exact exists_readFloat?_exponential s.negative h.ne_nil s.exponent

/-- **The name of a number is read as this number.** -/
theorem readFloat?_standard {x : Float} {a : Binary} (hx : Parts.ofFloat x = .finite a)
    (h0 : a.m ≠ 0) : readFloat? (Scientific.ofBinary a).standard = some x := by
  have ha := canonical_of_ofFloat hx
  obtain ⟨hleads, -, hneg, hvalue⟩ := Binary.ofBinary_spec ha h0
  obtain ⟨y, hread, hrounds⟩ := Scientific.exists_readFloat?_standard hleads
  rw [hneg, hvalue] at hrounds
  rw [hread, eq_of_ofFloat_eq (ofFloat_eq_of_rounds hrounds ha a.roundsFrom_shortest) hx]

end PocketCalc.Decimal
