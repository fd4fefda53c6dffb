import Rulebook.Proofs.Decimal.Positional
import Rulebook.Proofs.Json.Reread

/-! The JSON text of a real number. However it is laid out, a reader finds the significand and the
power of ten that were written. -/

namespace Rulebook

namespace NumberText
open Decimal Numeral

theorem take_of_fits {ds : List Char} (hd : ∀ c ∈ ds, isDigit c) {n : Nat}
    (hfits : Nat.ofDigitChars 10 ds n ≤ top) : take n ds = (Nat.ofDigitChars 10 ds n, 0) := by
  have hn : n ≤ Nat.ofDigitChars 10 ds n := by
    rw [Nat.ofDigitChars_eq_ofDigitChars_zero]
    exact Nat.le_trans (Nat.le_mul_of_pos_left n (Nat.pow_pos (by decide))) (Nat.le_add_right _ _)
  obtain ⟨k, hk, htake⟩ := take_digits hd (hn.trans hfits)
  obtain rfl := hk.zero hfits
  have hone : Nat.ofDigitChars 10 ds n / Nat.pow 10 0 = Nat.ofDigitChars 10 ds n := Nat.div_one _
  rw [htake, hone]

theorem significand_of_fits {t : NumberText} (hwhole : ∀ c ∈ t.whole, isDigit c)
    (hfraction : ∀ c ∈ t.fraction, isDigit c) (hfits : ofDigitChars (t.whole ++ t.fraction) ≤ top) :
    t.significand =
      ⟨ofDigitChars (t.whole ++ t.fraction), t.exponent.getD 0 - t.fraction.length⟩ := by
  have hsplit : Nat.ofDigitChars 10 t.fraction (ofDigitChars t.whole) =
      ofDigitChars (t.whole ++ t.fraction) := (Nat.ofDigitChars_append 0).symm
  have hle : ofDigitChars t.whole ≤ ofDigitChars (t.whole ++ t.fraction) := by
    rw [← hsplit, Nat.ofDigitChars_eq_ofDigitChars_zero]
    exact Nat.le_trans (Nat.le_mul_of_pos_left _ (Nat.pow_pos (by decide))) (Nat.le_add_right _ _)
  have htake : take 0 t.whole = (ofDigitChars t.whole, 0) := take_of_fits hwhole (hle.trans hfits)
  have htake' : take (ofDigitChars t.whole) t.fraction =
      (ofDigitChars (t.whole ++ t.fraction), 0) := by
    rw [← hsplit] at hfits ⊢
    exact take_of_fits hfraction hfits
  simp only [significand, htake, htake', Decimal.mk.injEq, true_and]
  omega

section
variable (negative : Bool) {whole fraction : List Char} (hne : whole ≠ [])
    (hwhole : ∀ c ∈ whole, isDigit c) (hzero : whole.head? = some '0' → whole.length = 1)
include hne hwhole hzero

theorem scanWhole_append (rest : List Char) (hrest : ∀ c ∈ rest.head?, ¬ isDigit c) :
    scanWhole negative (whole ++ rest) = scanFraction negative whole rest := by
  have hlead : ¬ (whole.head? = some '0' ∧ whole.length ≠ 1) := fun h => h.2 (hzero h.1)
  rw [scanWhole, spanDigits_append whole rest hwhole hrest]
  dsimp only
  rw [if_neg hne, if_neg hlead]

theorem scanWhole_point (hfraction : ∀ c ∈ fraction, isDigit c) (hne' : fraction ≠ [])
    (rest : List Char) (hrest : ∀ c ∈ rest.head?, ¬ isDigit c) :
    scanWhole negative (whole ++ '.' :: (fraction ++ rest)) =
      scanExponent negative whole fraction rest := by
  rw [scanWhole_append negative hne hwhole hzero _ (by simp [isDigit]), scanFraction,
    spanDigits_append fraction rest hfraction hrest]
  dsimp only
  rw [if_neg hne']

end

theorem scanExponent_ends (negative : Bool) (whole fraction : List Char) {rest : List Char}
    (hrest : JsonText.Ends rest) :
    scanExponent negative whole fraction rest = .found ⟨negative, whole, fraction, none⟩ rest := by
  cases rest with
  | nil => rfl
  | cons c r =>
    obtain ⟨-, -, hlower, hupper⟩ := hrest c rfl
    simp [scanExponent, hlower, hupper]

theorem scanExponent_digits (negative : Bool) (whole fraction : List Char) (e : Int)
    {rest : List Char} (hrest : JsonText.Ends rest) :
    scanExponent negative whole fraction
        ('e' :: (if e < 0 then '-' else '+') :: (digitChars e.natAbs ++ rest)) =
      .found ⟨negative, whole, fraction, some e⟩ rest := by
  have hspan := spanDigits_append (digitChars e.natAbs) rest
    (fun c hc => isDigit_of_mem_digitChars hc) fun c hc => (hrest c hc).1
  have hvalue := ofDigitChars_digitChars e.natAbs
  by_cases he : e < 0
  · simp [scanExponent, he, sign, hspan, digitChars_ne_nil, hvalue, abs_of_neg he]
  · simp [scanExponent, he, sign, hspan, digitChars_ne_nil, hvalue, Int.not_lt.mp he]

/-- A text that any reader takes for a number with this significand, and not for a whole one. -/
structure Spells (cs : List Char) (d : Decimal) : Prop where
  first : ∃ c r, cs = c :: r ∧ isDigit c
  scan (negative : Bool) {rest : List Char} (hrest : JsonText.Ends rest) :
    ∃ t, scanWhole negative (cs ++ rest) = .found t rest ∧ t.negative = negative ∧
      ¬ (t.fraction = [] ∧ t.exponent = none) ∧ t.significand = d

theorem exists_cons_of_digits {whole : List Char} (hne : whole ≠ [])
    (hwhole : ∀ c ∈ whole, isDigit c) (rest : List Char) :
    ∃ c r, whole ++ rest = c :: r ∧ isDigit c := by
  obtain ⟨c, r, rfl⟩ := List.exists_cons_of_ne_nil hne
  exact ⟨c, r ++ rest, rfl, hwhole c List.mem_cons_self⟩

theorem spells_point (whole fraction : List Char) (hne : whole ≠ [])
    (hwhole : ∀ c ∈ whole, isDigit c) (hzero : whole.head? = some '0' → whole.length = 1)
    (hfraction : ∀ c ∈ fraction, isDigit c) (hne' : fraction ≠ [])
    (hfits : ofDigitChars (whole ++ fraction) ≤ top) :
    Spells (whole ++ '.' :: fraction) ⟨ofDigitChars (whole ++ fraction), -fraction.length⟩ := by
  refine ⟨exists_cons_of_digits hne hwhole _, fun negative rest hrest => ?_⟩
  refine ⟨⟨negative, whole, fraction, none⟩, ?_, rfl, fun h => hne' h.1, ?_⟩
  · rw [List.append_assoc, List.cons_append,
      scanWhole_point negative hne hwhole hzero hfraction hne' rest fun c hc => (hrest c hc).1,
      scanExponent_ends negative whole fraction hrest]
  · rw [significand_of_fits hwhole hfraction hfits]
    simp

theorem spells_exponent {c : Char} {fraction : List Char} (hc : isDigit c)
    (hfraction : ∀ c ∈ fraction, isDigit c) (e : Int)
    (hfits : ofDigitChars (c :: fraction) ≤ top) :
    Spells (c :: (if fraction.isEmpty then [] else '.' :: fraction) ++
        'e' :: (if e < 0 then '-' else '+') :: digitChars e.natAbs)
      ⟨ofDigitChars (c :: fraction), e - fraction.length⟩ := by
  have hwhole : ∀ c' ∈ [c], isDigit c' := by simpa using hc
  refine ⟨⟨c, _, rfl, hc⟩, fun negative rest hrest => ?_⟩
  have htail := scanExponent_digits negative [c] fraction e hrest
  have hexponent : ¬ (fraction = [] ∧ some e = none) := by simp
  refine ⟨⟨negative, [c], fraction, some e⟩, ?_, rfl, hexponent, ?_⟩
  · have hmark : ∀ c ∈ ('e' :: (if e < 0 then '-' else '+') ::
        (digitChars e.natAbs ++ rest)).head?, ¬ isDigit c := by simp [isDigit]
    cases fraction with
    | nil =>
      have hwhole := scanWhole_append negative (by simp) hwhole (by simp) _ hmark
      exact hwhole.trans htail
    | cons c' r =>
      have hpoint := scanWhole_point negative (by simp) hwhole (by simp) hfraction (by simp) _ hmark
      rw [← htail, ← hpoint]
      simp
  · exact significand_of_fits hwhole hfraction hfits

theorem spells_zero : Spells "0.0".toList ⟨0, -1⟩ :=
  spells_point ['0'] ['0'] (by simp) (by simp [isDigit]) (by simp)
    (by simp [isDigit]) (by simp) (by decide)

theorem spells_scientific {d : Decimal} (hfits : d.digits ≤ top) : Spells d.scientific d := by
  have hdigits : ∀ c ∈ digitChars d.digits, isDigit c := fun c hc => isDigit_of_mem_digitChars hc
  have hvalue := ofDigitChars_digitChars d.digits
  rw [scientific]
  split
  · next c r hcs =>
    rw [hcs] at hdigits hvalue
    have hlength : d.leading - r.length = d.exponent := by
      rw [leading, hcs, List.length_cons]
      omega
    have hspells := spells_exponent (hdigits c List.mem_cons_self)
      (fun c' hc' => hdigits c' (List.mem_cons_of_mem c hc')) d.leading (by rwa [hvalue])
    rwa [hvalue, hlength] at hspells
  · next hcs => exact absurd hcs (digitChars_ne_nil _)

/- The layouts of a decimal that is not zero. -/

section
variable {d : Decimal} (hpos : 0 < d.digits)
include hpos

theorem spells_whole (he : 0 ≤ d.exponent) (hfits : d.numerator * 10 ≤ top) :
    Spells (d.positional ++ ".0".toList) ⟨d.numerator * 10, -1⟩ := by
  have h := positional_whole he
  have hvalue : ofDigitChars (d.positional ++ ['0']) = d.numerator * 10 := by
    rw [← List.replicate_one, ofDigitChars_append_zeros, h.value, Nat.pow_one]
  have hspells := spells_point d.positional ['0'] h.ne_nil h.digits
    (fun hzero => absurd hzero (h.head hpos)) (by simp [isDigit]) (by simp) (by rwa [hvalue])
  rwa [hvalue] at hspells

theorem spells_positional (he : d.exponent < 0) (hfits : d.digits ≤ top) :
    Spells d.positional d := by
  obtain ⟨before, after, h⟩ := exists_pointed he
  have hspells := spells_point before after h.before_ne_nil
    (fun c hc => h.digits c (List.mem_append_left after hc)) (h.head hpos)
    (fun c hc => h.digits c (List.mem_append_right before hc)) h.after_ne_nil (by rwa [h.value])
  rwa [h.value, ← h.exponent, ← h.text] at hspells

end

end NumberText

namespace Magnitude
open NumberText Decimal

theorem spells_writeMagnitude (x : Magnitude) :
    Spells (JsonNumber.writeMagnitude x) x.written := by
  have hdigits := digits_written_le x
  have hshortest := ofDecimal_shortest .even x
  unfold JsonNumber.writeMagnitude
  unfold written at hdigits ⊢
  dsimp only at hdigits ⊢
  split
  · next hzero =>
    have hx : x = zero := by rw [← hshortest, ofDecimal, if_pos hzero]
    subst hx
    exact spells_zero
  · next hne =>
    generalize x.shortest .even = d at *
    by_cases hplain : 0 ≤ d.exponent ∧ d.leading < 16
    · have hlow : -5 ≤ d.leading := by
        have hlength := List.length_pos_iff.mpr (digitChars_ne_nil d.digits)
        rw [leading]
        omega
      rw [if_pos hplain] at hdigits ⊢
      rw [if_pos ⟨hlow, hplain.2⟩, if_neg (by omega)]
      exact spells_whole (Nat.pos_of_ne_zero hne) hplain.1 (hdigits.trans (by decide))
    · rw [if_neg hplain] at hdigits ⊢
      split
      · next h =>
        have he : d.exponent < 0 := Int.not_le.mp fun he => hplain ⟨he, h.2⟩
        rw [if_pos he]
        exact spells_positional (Nat.pos_of_ne_zero hne) he (hdigits.trans (by decide))
      · exact spells_scientific (hdigits.trans (by decide))

end Magnitude

namespace JsonText
open NumberText Numeral

theorem read_of_spells {t : NumberText} {d : Decimal}
    (hreal : ¬ (t.fraction = [] ∧ t.exponent = none)) (hd : t.significand = d) :
    t.read = (size d).map fun x => .real (.signed t.negative x) := by
  have hnot : ¬ (t.fraction = [] ∧ t.exponent = none ∧ t.significand.exponent = 0) :=
    fun h => hreal ⟨h.1, h.2.1⟩
  unfold NumberText.read
  dsimp only
  rw [if_neg hnot, hd]

theorem scan_write (negative : Bool) {x : Magnitude} (hx : x.IsFinite) {rest : List Char} :
    scan ((JsonNumber.real (.signed negative x)).write ++ rest) =
      scanWhole negative (JsonNumber.writeMagnitude x ++ rest) := by
  obtain ⟨c, r, hcs, hc⟩ := x.spells_writeMagnitude.first
  rw [JsonNumber.write, if_pos hx]
  cases negative with
  | true => rfl
  | false =>
    rw [hcs]
    simp [scan, ne_of_isDigit hc (d := '-') rfl]

theorem number_write (negative : Bool) {x : Magnitude} (hx : x.IsFinite) {rest : List Char}
    (hrest : Ends rest) :
    number ((JsonNumber.real (.signed negative x)).write ++ rest) =
      (.number (.ok (.real (.signed negative x.reread))), some rest) := by
  obtain ⟨t, hfound, hnegative, hreal, hd⟩ := x.spells_writeMagnitude.scan negative hrest
  have hread := read_of_spells hreal hd
  rw [Magnitude.size_written hx, hnegative] at hread
  rw [number, scan_write negative hx, hfound]
  dsimp only
  rw [hread]
  rfl

theorem value_real (fuel : Nat) (negative : Bool) {x : Magnitude} (hx : x.IsFinite)
    {rest : List Char} (hrest : Ends rest) :
    value (fuel + 1) ((JsonNumber.real (.signed negative x)).write ++ rest) =
      (.number (.ok (.real (.signed negative x.reread))), some rest) := by
  have hfirst : ∃ c r, (JsonNumber.real (.signed negative x)).write = c :: r ∧
      (c = '-' ∨ isDigit c) := by
    obtain ⟨c, r, hcs, hc⟩ := x.spells_writeMagnitude.first
    rw [JsonNumber.write, if_pos hx]
    cases negative with
    | true => exact ⟨'-', _, rfl, .inl rfl⟩
    | false => exact ⟨c, r, hcs, .inr hc⟩
  obtain ⟨c, r, hcs, hc⟩ := hfirst
  rw [← number_write negative hx hrest, hcs, List.cons_append, value_of_digit fuel c _ hc]

end JsonText
end Rulebook
