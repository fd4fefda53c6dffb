import Rulebook.Proofs.Binary64.Nearest
import Rulebook.Proofs.Json.Reading
import Rulebook.Proofs.Literal

/-! Whole numbers in JSON texts. Up to 64 bits they are read as they are. Of longer ones the leading
digits are kept that fit, and scaled by a power of ten. -/

namespace Rulebook

namespace Decimal

theorem ofDigitChars_singleton_div {c : Char} (hc : Numeral.isDigit c) (n : Nat) :
    Nat.ofDigitChars 10 [c] n / 10 = n := by
  have hn : 48 ≤ c.toNat ∧ c.toNat ≤ 57 := by
    simpa [Numeral.isDigit, Char.le_def, UInt32.le_iff_toNat_le] using hc
  have hzero : '0'.toNat = 48 := rfl
  rw [Nat.ofDigitChars_cons, Nat.ofDigitChars_nil, hzero]
  omega

theorem ofDigitChars_div {ds : List Char} (hd : ∀ c ∈ ds, Numeral.isDigit c) (n : Nat) :
    Nat.ofDigitChars 10 ds n / Nat.pow 10 ds.length = n := by
  induction ds generalizing n with
  | nil => exact Nat.div_one n
  | cons c r ih =>
    have hsplit : Nat.ofDigitChars 10 (c :: r) n =
        Nat.ofDigitChars 10 r (Nat.ofDigitChars 10 [c] n) := Nat.ofDigitChars_append (l := [c]) n
    have hpow : Nat.pow 10 (c :: r).length = Nat.pow 10 r.length * 10 := rfl
    rw [hsplit, hpow, ← Nat.div_div_eq_div_mul, ih fun x hx => hd x (List.mem_cons_of_mem c hx),
      ofDigitChars_singleton_div (hd c List.mem_cons_self)]

end Decimal

namespace NumberText
open Decimal Numeral

/-- So many last digits of a number are left out until the rest fits a word, and no more. -/
structure Dropped (n k : Nat) : Prop where
  fits : n / Nat.pow 10 k ≤ top
  least : ∀ j < k, top < n / Nat.pow 10 j

theorem take_digits {ds : List Char} (hd : ∀ c ∈ ds, isDigit c) {n : Nat} (hn : n ≤ top) :
    ∃ k, Dropped (Nat.ofDigitChars 10 ds n) k ∧
      take n ds = (Nat.ofDigitChars 10 ds n / Nat.pow 10 k, k) := by
  induction ds generalizing n with
  | nil => exact ⟨0, ⟨by simpa using hn, by simp⟩, by simp [take]⟩
  | cons c r ih =>
    have hr : ∀ x ∈ r, isDigit x := fun x hx => hd x (List.mem_cons_of_mem c hx)
    have hsplit : Nat.ofDigitChars 10 (c :: r) n =
        Nat.ofDigitChars 10 r (Nat.ofDigitChars 10 [c] n) := Nat.ofDigitChars_append (l := [c]) n
    rw [take]
    by_cases hnext : Nat.ofDigitChars 10 [c] n ≤ top
    · rw [if_pos hnext, hsplit]
      exact ih hr hnext
    · rw [if_neg hnext]
      have hwhole := ofDigitChars_div hd n
      refine ⟨r.length + 1, ⟨?_, fun j hj => ?_⟩, ?_⟩
      · exact hwhole.symm ▸ hn
      · have hle : Nat.pow 10 j ≤ Nat.pow 10 r.length :=
          Nat.pow_le_pow_right (by decide) (by omega)
        have hpos : 0 < Nat.pow 10 j := Nat.pow_pos (by decide)
        have hdiv : Nat.ofDigitChars 10 (c :: r) n / Nat.pow 10 r.length ≤
            Nat.ofDigitChars 10 (c :: r) n / Nat.pow 10 j := Nat.div_le_div_left hle hpos
        rw [hsplit, ofDigitChars_div hr] at hdiv
        rw [hsplit]
        omega
      · exact congrArg (·, r.length + 1) hwhole.symm

theorem Dropped.zero {n k : Nat} (h : Dropped n k) (hn : n ≤ top) : k = 0 := by
  by_contra hk
  have hfirst := h.least 0 (by omega)
  have hone : n / Nat.pow 10 0 = n := Nat.div_one n
  omega

theorem Dropped.pos {n k : Nat} (h : Dropped n k) (hn : top < n) : k ≠ 0 := by
  rintro rfl
  have hfits := h.fits
  have hone : n / Nat.pow 10 0 = n := Nat.div_one n
  omega

theorem Dropped.unique {n k j : Nat} (hk : Dropped n k) (hj : Dropped n j) : k = j := by
  rcases Nat.lt_trichotomy k j with h | h | h
  · exact absurd (hj.least k h) (Nat.not_lt.mpr hk.fits)
  · exact h
  · exact absurd (hk.least j h) (Nat.not_lt.mpr hj.fits)

theorem Dropped.le_power {n k : Nat} (h : Dropped n k) (hn : n < Magnitude.overflow) :
    k ≤ 308 := by
  have hbound : ∃ j ≤ 308, Magnitude.overflow / Nat.pow 10 j ≤ top :=
    ⟨308, Nat.le_refl _, by decide +kernel⟩
  obtain ⟨j, hj, hbound⟩ := hbound
  have hsmall : n / Nat.pow 10 j ≤ Magnitude.overflow / Nat.pow 10 j :=
    Nat.div_le_div_right (Nat.le_of_lt hn)
  by_contra hk
  exact absurd (h.least j (by omega)) (Nat.not_lt.mpr (Nat.le_trans hsmall hbound))

/-- The number of a text whose last digits were dropped. Both factors and their product round. -/
def scaled (n k : Nat) : Magnitude := (Magnitude.ofNat (n / Nat.pow 10 k)).mul (power k)

theorem size_scaled {n k : Nat} (hk : k ≤ 308) :
    size ⟨n / Nat.pow 10 k, k⟩ =
      if (scaled n k).IsFinite then .ok (scaled n k) else .error .malformed := by
  have hlow : ¬ (k : Int) < 0 := by omega
  have hhigh : ¬ 308 < (k : Int) := by omega
  simp only [size]
  rw [if_neg hlow, if_neg hhigh]
  rfl

theorem power_exact : ∀ k ≤ 22, (power k).units = Nat.pow 10 k * Magnitude.one := by decide +kernel

theorem top_lt_overflow : top < Magnitude.overflow := by decide +kernel

theorem scaled_of_exact {m e k : Nat} (hm : m < 2 * Magnitude.binade) (hfits : m * 2 ^ e ≤ top)
    (hk : k ≤ 22) : scaled (m * 2 ^ e * Nat.pow 10 k) k = .ofNat (m * 2 ^ e * Nat.pow 10 k) := by
  have hpos : 0 < Nat.pow 10 k := Nat.pow_pos (by decide)
  have hfinite : (Magnitude.ofNat (m * 2 ^ e)).IsFinite :=
    (Magnitude.isFinite_ofNat_iff _).mpr (Nat.lt_of_le_of_lt hfits top_lt_overflow)
  rw [scaled, Nat.mul_div_cancel _ hpos]
  exact Magnitude.mul_of_exact (Magnitude.units_ofNat hm hfinite) (power_exact k hk)

def ofDigits (ds : List Char) : NumberText := ⟨false, ds, [], none⟩

theorem scan_digits {ds : List Char} (hne : ds ≠ []) (hd : ∀ c ∈ ds, isDigit c)
    (hzero : ds.head? = some '0' → ds.length = 1) {rest : List Char} (hr : JsonText.Ends rest) :
    scan (ds ++ rest) = .found (ofDigits ds) rest := by
  have hspan : spanDigits (ds ++ rest) = (ds, rest) :=
    spanDigits_append ds rest hd fun c hc => (hr c hc).1
  have hwhole : scan (ds ++ rest) = scanWhole false (ds ++ rest) := by
    obtain ⟨c, r, rfl⟩ := List.exists_cons_of_ne_nil hne
    have hc : c ≠ '-' := ne_of_isDigit (hd c List.mem_cons_self) rfl
    simp [scan, hc]
  have hlead : ¬ (ds.head? = some '0' ∧ ds.length ≠ 1) := fun h => h.2 (hzero h.1)
  have hfraction : scanFraction false ds rest = .found (ofDigits ds) rest := by
    cases rest with
    | nil => rfl
    | cons c r =>
      obtain ⟨-, hpoint, hlower, hupper⟩ := hr c rfl
      simp [scanFraction, scanExponent, hpoint, hlower, hupper, ofDigits]
  rw [hwhole, scanWhole, hspan]
  dsimp only
  rw [if_neg hne, if_neg hlead, hfraction]

theorem significand_ofDigits {ds : List Char} (hd : ∀ c ∈ ds, isDigit c) :
    ∃ k, Dropped (ofDigitChars ds) k ∧
      (ofDigits ds).significand = ⟨ofDigitChars ds / Nat.pow 10 k, k⟩ := by
  obtain ⟨k, hk, htake⟩ := take_digits hd (Nat.zero_le top)
  refine ⟨k, hk, ?_⟩
  simp only [significand, ofDigits, htake, take]
  simp [ofDigitChars]

theorem read_ofDigits {ds : List Char} (hd : ∀ c ∈ ds, isDigit c) :
    ∃ k, Dropped (ofDigitChars ds) k ∧
      (ofDigitChars ds ≤ top → (ofDigits ds).read = .ok (.whole (ofDigitChars ds))) ∧
      (top < ofDigitChars ds → ofDigitChars ds < Magnitude.overflow →
        (ofDigits ds).read = if (scaled (ofDigitChars ds) k).IsFinite then
          .ok (.real (.signed false (scaled (ofDigitChars ds) k))) else .error .malformed) := by
  obtain ⟨k, hk, hsignificand⟩ := significand_ofDigits hd
  refine ⟨k, hk, fun hn => ?_, fun hn hfinite => ?_⟩
  · obtain rfl := hk.zero hn
    have hone : ofDigitChars ds / Nat.pow 10 0 = ofDigitChars ds := Nat.div_one _
    rw [read, hsignificand, hone]
    simp [ofDigits]
  · have hpos := hk.pos hn
    have hexponent : ¬ ((ofDigits ds).fraction = [] ∧ (ofDigits ds).exponent = none ∧
        (k : Int) = 0) := fun h => hpos (by omega)
    rw [read, hsignificand]
    dsimp only
    rw [if_neg hexponent, size_scaled (hk.le_power hfinite)]
    split <;> rfl

end NumberText

namespace JsonText
open Numeral NumberText

theorem value_digits (fuel : Nat) {ds : List Char} (hne : ds ≠ []) (hd : ∀ c ∈ ds, isDigit c)
    (hzero : ds.head? = some '0' → ds.length = 1) {rest : List Char} (hr : Ends rest) :
    value (fuel + 1) (ds ++ rest) = (.number (ofDigits ds).read, some rest) := by
  have hscan := scan_digits hne hd hzero hr
  obtain ⟨c, r, rfl⟩ := List.exists_cons_of_ne_nil hne
  rw [List.cons_append] at hscan ⊢
  rw [value_of_digit fuel c _ (.inr (hd c List.mem_cons_self)), number, hscan]

theorem ofString_member {k : String} {ds : List Char} (hne : ds ≠ []) (hd : ∀ c ∈ ds, isDigit c)
    (hzero : ds.head? = some '0' → ds.length = 1) {s : String}
    (hs : s.toList = '{' :: (Quoted.write k ++ ':' :: ' ' :: (ds ++ ['}']))) :
    ofString s = ⟨.object (.member (.ok k) (.number (ofDigits ds).read) (.done none)), false⟩ := by
  have hvalue (fuel : Nat) : value (fuel + 1) (' ' :: (ds ++ ['}'])) =
      (.number (ofDigits ds).read, some ['}']) := by
    rw [← List.singleton_append, value_space _ [' '] _ (by simp [isSpace]),
      value_digits fuel hne hd hzero (ends_cons '}' [] (by decide))]
  have hobject (fuel : Nat) : value (fuel + 3) s.toList =
      (.object (.member (.ok k) (.number (ofDigits ds).read) (.done none)), some []) := by
    have hmembers := members_last (fuel + 1) k _ [] [] _ (by simp) (hvalue fuel)
    have hquote : Quoted.write k ++ ':' :: ' ' :: (ds ++ ['}']) =
        '"' :: (k.toList.flatMap Quoted.escape ++ '"' :: ':' :: ' ' :: (ds ++ ['}'])) := by
      simp [Quoted.write]
    rw [hquote] at hmembers
    rw [hs, hquote, ← List.nil_append ('"' :: _), value_object _ [] _ (by simp), hmembers]
  obtain ⟨fuel, hfuel⟩ : ∃ fuel, 2 * s.toList.length + 2 = fuel + 3 := by
    rw [hs]
    exact ⟨_, rfl⟩
  simp only [ofString, ofChars, hfuel, hobject]
  rfl

end JsonText
end Rulebook
