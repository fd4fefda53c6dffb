import Rulebook.Proofs.Binary64.Shortest
import Rulebook.Proofs.Json.Finite

/-! Numbers that are written as JSON and read again. The digits that are written stand for the
number alone, but they are not read in one step: they become a binary64, a power of ten becomes one,
and then their product or quotient. Each step rounds, so another number may come back. It is a near
one, and it is the same one if nothing rounds before the last step. -/

namespace Rulebook

namespace Decimal

theorem numerator_lt {d : Decimal} {k : Nat} (h : 0 ≤ d.exponent) (hk : d.leading < k) :
    d.numerator < 10 ^ k := by
  obtain ⟨e, he⟩ := Int.eq_ofNat_of_zero_le h
  have hlength : d.digits < 10 ^ (digitChars d.digits).length :=
    (Nat.length_toDigits_le_iff (by decide)
      (List.length_pos_iff.mpr (digitChars_ne_nil d.digits))).mp (Nat.le_refl _)
  rw [leading, he] at hk
  rw [numerator, he, Int.toNat_natCast]
  calc
    d.digits * 10 ^ e < 10 ^ (digitChars d.digits).length * 10 ^ e :=
      Nat.mul_lt_mul_of_pos_right hlength (Nat.pow_pos (by decide))
    _ = 10 ^ ((digitChars d.digits).length + e) := (Nat.pow_add _ _ _).symm
    _ ≤ 10 ^ k := Nat.pow_le_pow_right (by decide) (by omega)

theorem le_numerator {d : Decimal} {k : Nat} (hpos : 0 < d.digits) (h : 0 ≤ d.exponent)
    (hk : k ≤ d.leading) : 10 ^ k ≤ d.numerator := by
  obtain ⟨e, he⟩ := Int.eq_ofNat_of_zero_le h
  obtain ⟨n, hn⟩ := Nat.exists_eq_succ_of_ne_zero
    (List.length_pos_iff.mpr (digitChars_ne_nil d.digits)).ne'
  have hlength : 10 ^ n ≤ d.digits := by
    rcases Nat.eq_zero_or_pos n with rfl | hlong
    · exact hpos
    · by_contra hlt
      have hshort := (Nat.length_toDigits_le_iff (by decide) hlong).mpr (Nat.not_le.mp hlt)
      rw [digitChars] at hn
      omega
  rw [leading, he, hn] at hk
  rw [numerator, he, Int.toNat_natCast]
  calc
    10 ^ k ≤ 10 ^ (n + e) := Nat.pow_le_pow_right (by decide) (by omega)
    _ = 10 ^ n * 10 ^ e := Nat.pow_add _ _ _
    _ ≤ d.digits * 10 ^ e := Nat.mul_le_mul_right _ hlength

end Decimal

namespace Magnitude
open NumberText
variable {x : Magnitude}

/-- The decimal that the JSON text of a magnitude spells. Where no exponent is written, a whole
number has one digit behind the point. -/
def written (x : Magnitude) : Decimal :=
  let d := x.shortest .even
  if 0 ≤ d.exponent ∧ d.leading < 16 then ⟨d.numerator * 10, -1⟩ else d

def reread (x : Magnitude) : Magnitude :=
  let d := x.written
  if d.exponent < 0 then shrink (ofNat d.digits) d.exponent.natAbs
  else (ofNat d.digits).mul (power d.exponent.toNat)

theorem units_written (x : Magnitude) : x.written.units = (x.shortest .even).units := by
  unfold written
  dsimp only
  generalize x.shortest .even = d
  split_ifs with h
  · rw [Decimal.units_of_nonneg h.1, Decimal.units, Nat.cast_mul, zpow_neg_one, Nat.cast_ofNat,
      mul_inv_cancel_right₀ (by norm_num)]
  · rfl

theorem ofDecimal_written (x : Magnitude) : ofDecimal x.written = x :=
  (ofDecimal_congr x.units_written).trans (ofDecimal_shortest .even x)

theorem digits_written_le (x : Magnitude) : x.written.digits ≤ 10 ^ 17 := by
  unfold written
  dsimp only
  split_ifs with h
  · have hlt := Decimal.numerator_lt (k := 16) h.1 h.2
    dsimp only
    omega
  · exact digits_shortest_le .even x

/- The factors that are read are near to what is written. -/

theorem near_ofNat {n : Nat} (hpos : 0 < n) (hn : n < overflow) :
    Near 1 (ofNat n).units ((n : ℚ) * one) := by
  have hfinite : (ofNat n).IsFinite := (isFinite_ofNat_iff n).mpr hn
  have hquotient : quotient n 1 = (n : ℚ) * one := by rw [quotient, Nat.cast_one, div_one]
  have hlarge : (2 : ℚ) ^ 52 ≤ quotient n 1 := by
    obtain ⟨e, he, hone⟩ := one_eq
    have hone : 2 ^ 52 ≤ one := by
      rw [hone]
      exact Nat.pow_le_pow_right (by decide) (by omega)
    have hle : 2 ^ 52 ≤ n * one := hone.trans (Nat.le_mul_of_pos_left _ hpos)
    rw [hquotient]
    exact_mod_cast hle
  have hnear := near_round (Nat.le_refl 52) Nat.one_pos hlarge
  rwa [← rank_round hfinite, hquotient, unitsAt_rank] at hnear

theorem near_power {k : Nat} (hk : k ≤ 308) : Near 1 (power k).units ((10 : ℚ) ^ k * one) := by
  obtain ⟨j, hj, hlast, -⟩ := overflow_bounds
  have hpow : Nat.pow 10 k ≤ Nat.pow 10 j := Nat.pow_le_pow_right (by decide) (hj ▸ hk)
  have hnear := near_ofNat (Nat.pow_pos (by decide)) (Nat.lt_of_le_of_lt hpow hlast)
  rwa [Nat.cast_pow, Nat.cast_ofNat] at hnear

theorem near_power_exact {k : Nat} (hk : k ≤ 22) :
    Near 0 (power k).units ((10 : ℚ) ^ k * one) := by
  have hunits := power_exact k hk
  rw [hunits, Nat.cast_mul, Nat.pow_eq, Nat.cast_pow, Nat.cast_ofNat]
  exact Near.refl _

/- What is near to two numbers, multiplied or divided, is near to their product or quotient. -/

section
variable {i j a b : Nat} {u v : ℚ} (ha : Near i a (u * one)) (hb : Near j b (v * one))
include ha hb

theorem near_product (hu : 0 ≤ u) (hv : 0 ≤ v) :
    Near (i + j) (quotient (a * b) (one * one)) (u * v * one) := by
  have hone : (0 : ℚ) < one := by exact_mod_cast one_pos
  have hleft : quotient (a * b) (one * one) = (a : ℚ) * b / one := by
    rw [quotient, Nat.cast_mul, Nat.cast_mul, mul_div_mul_right _ _ hone.ne']
  have hright : u * v * one = u * one * (v * one) / one := by
    rw [eq_div_iff hone.ne']
    ring
  have hnear := ha.mul hb (Nat.cast_nonneg a) (mul_nonneg hu hone.le) (Nat.cast_nonneg b)
    (mul_nonneg hv hone.le)
  rw [hleft, hright]
  exact hnear.div (Near.refl (one : ℚ)) (mul_nonneg (Nat.cast_nonneg a) (Nat.cast_nonneg b))
    (mul_nonneg (mul_nonneg hu hone.le) (mul_nonneg hv hone.le)) hone hone

theorem near_ratio (hu : 0 ≤ u) (hv : 0 < v) (hpos : 0 < b) :
    Near (i + j) (quotient a b) (u / v * one) := by
  have hone : (0 : ℚ) < one := by exact_mod_cast one_pos
  have hright : u / v * one = u * one * one / (v * one) := by
    rw [mul_div_mul_right _ _ hone.ne', div_mul_eq_mul_div]
  have hnear := ha.mul (Near.refl (one : ℚ)) (Nat.cast_nonneg a) (mul_nonneg hu hone.le) hone.le
    hone.le
  rw [quotient, hright]
  exact hnear.div hb (mul_nonneg (Nat.cast_nonneg a) hone.le)
    (mul_nonneg (mul_nonneg hu hone.le) hone.le) (Nat.cast_pos.mpr hpos) (mul_pos hv hone)

end

theorem power_pos (k : Nat) : 0 < (power k).units := one_pos.trans_le (one_le_power k)

theorem rank_div {y : Magnitude} (hx : x.IsFinite) (hy : one ≤ y.units) :
    (x.div y).rank = rawRank x.units y.units :=
  rank_round (Nat.lt_of_le_of_lt (rank_div_le x hy) hx)

theorem isFinite_ofNat_top {n : Nat} (hn : n ≤ top) : (ofNat n).IsFinite :=
  (isFinite_ofNat_iff n).mpr (Nat.lt_of_le_of_lt hn top_lt_overflow)

section
variable {n : Nat} (hn : 0 < n) (hdigits : n ≤ 10 ^ 17)
include hn hdigits

theorem near_significand : Near 1 (ofNat n).units ((n : ℚ) * one) :=
  near_ofNat hn (Nat.lt_of_le_of_lt (hdigits.trans (by decide)) top_lt_overflow)

theorem rawRank_grow {k r : Nat} (hk : k ≤ 308) (hr : Around r ((n : ℚ) * 10 ^ k * one)) :
    rawRank ((ofNat n).units * (power k).units) (one * one) ≤ r + 2 ∧
      r ≤ rawRank ((ofNat n).units * (power k).units) (one * one) + 2 :=
  rawRank_near (Nat.mul_pos one_pos one_pos) (by decide) hr
    (near_product (near_significand hn hdigits) (near_power hk) (Nat.cast_nonneg _) (by positivity))

theorem rank_div_power {k r : Nat} (hk : k ≤ 308) (hr : Around r ((n : ℚ) / 10 ^ k * one)) :
    ((ofNat n).div (power k)).rank ≤ r + 2 ∧ r ≤ ((ofNat n).div (power k)).rank + 2 := by
  rw [rank_div (isFinite_ofNat_top (hdigits.trans (by decide))) (one_le_power k)]
  exact rawRank_near (power_pos k) (by decide) hr
    (near_ratio (near_significand hn hdigits) (near_power hk) (Nat.cast_nonneg _) (by positivity)
      (power_pos k))

theorem near_div_power {k p : Nat} (hk : k ≤ 308) (hp : p ≤ 52)
    (hlarge : 5 * 2 ^ p ≤ 4 * ((n : ℚ) / 10 ^ k * one)) :
    Near (2 ^ (52 - p) + 2) ((ofNat n).div (power k)).units ((n : ℚ) / 10 ^ k * one) := by
  have hnear := near_ratio (near_significand hn hdigits) (near_power hk) (Nat.cast_nonneg n)
    (by positivity) (power_pos k)
  have hquotient : 2 ^ p ≤ quotient (ofNat n).units (power k).units := by
    have hdrift : drift ^ 2 ≤ 5 / 4 := by norm_num [drift]
    have hle := hnear.ge.trans (mul_le_mul_of_nonneg_right hdrift (quotient_nonneg _ _))
    linarith
  rw [← unitsAt_rank,
    rank_div (isFinite_ofNat_top (hdigits.trans (by decide))) (one_le_power k)]
  exact (near_round hp (power_pos k) hquotient).trans hnear

end

theorem shrink_long {k : Nat} (hk : 308 < k) (hk' : k ≤ 616) (hx : x ≠ zero) :
    ∃ p j, p = 308 ∧ k = p + j ∧ shrink x k = (x.div (power p)).div (power j) := by
  refine ⟨308, k - 308, rfl, by omega, ?_⟩
  rw [shrink, if_neg (by omega), if_neg hx, shrink, if_pos (by omega)]

theorem isFinite_div {y : Magnitude} (hx : x.IsFinite) (hy : one ≤ y.units) :
    (x.div y).IsFinite := Nat.lt_of_le_of_lt (rank_div_le x hy) hx

section
variable {n : Nat} (hn : 0 < n) (hdigits : n ≤ 10 ^ 17) {p j r : Nat} (hp : p = 308) (hj : 0 < j)
    (hj' : j ≤ 308) (hr : Around r ((n : ℚ) / 10 ^ p / 10 ^ j * one))
include hn hdigits hp hj' hr

/-- Two quotients in a row. The second one is small here, so that the many roundings move it by less
than a unit. -/
theorem rank_div_div_small (hsmall : (n : ℚ) / 10 ^ p / 10 ^ j * one ≤ 2 ^ 49) :
    (((ofNat n).div (power p)).div (power j)).rank ≤ r + 1 ∧
      r ≤ (((ofNat n).div (power p)).div (power j)).rank + 1 := by
  have hfinite : ((ofNat n).div (power p)).IsFinite :=
    isFinite_div (isFinite_ofNat_top (hdigits.trans (by decide))) (one_le_power p)
  -- Even `10 ^ -308` is far above the least magnitude.
  have hfirst : 5 * 2 ^ 50 ≤ 4 * ((n : ℚ) / 10 ^ p * one) := by
    have hunits : 5 * 2 ^ 50 * 10 ^ p ≤ 4 * one := by
      rw [hp]
      decide +kernel
    have hle : 5 * 2 ^ 50 * 10 ^ p ≤ 4 * (n * one) :=
      hunits.trans (Nat.mul_le_mul_left 4 (Nat.le_mul_of_pos_left one hn))
    rw [div_mul_eq_mul_div, ← mul_div_assoc, le_div_iff₀ (by positivity)]
    exact_mod_cast hle
  have hquotient := near_div_power hn hdigits hp.le (p := 50) (by decide) hfirst
  have hnear := near_ratio hquotient (near_power hj') (by positivity) (by positivity) (power_pos j)
  rw [rank_div hfinite (one_le_power j)]
  refine rawRank_near_small (power_pos j) hr hnear (by norm_num [drift]) ?_ hsmall
  exact mul_nonneg (by positivity) (Nat.cast_nonneg one)

theorem rank_div_div_large (hj : 0 < j) (hlarge : 2 ^ 49 < (n : ℚ) / 10 ^ p / 10 ^ j * one) :
    (((ofNat n).div (power p)).div (power j)).rank ≤ r + 3 ∧
      r ≤ (((ofNat n).div (power p)).div (power j)).rank + 3 := by
  have hfinite : ((ofNat n).div (power p)).IsFinite :=
    isFinite_div (isFinite_ofNat_top (hdigits.trans (by decide))) (one_le_power p)
  have hten : (10 : ℚ) ≤ 10 ^ j := by
    exact_mod_cast Nat.pow_le_pow_right (n := 10) (by decide) hj
  have hfirst : 5 * 2 ^ 52 ≤ 4 * ((n : ℚ) / 10 ^ p * one) := by
    have hscaled : (n : ℚ) / 10 ^ p * one = n / 10 ^ p / 10 ^ j * one * 10 ^ j := by
      field_simp
    have hle := mul_le_mul hlarge.le hten (by norm_num) (le_trans (by norm_num) hlarge.le)
    rw [hscaled]
    linarith
  -- With more places, seventeen digits could not make up so large a number.
  have hexact : j ≤ 22 := by
    by_contra hmany
    have hunits : 10 ^ 17 * one ≤ 2 ^ 49 * (10 ^ p * 10 ^ 23) := by
      rw [hp]
      decide +kernel
    have hpow : 10 ^ 23 ≤ 10 ^ j := Nat.pow_le_pow_right (by decide) (by omega)
    have hle : n * one ≤ 2 ^ 49 * (10 ^ p * 10 ^ j) :=
      calc
        n * one ≤ 10 ^ 17 * one := Nat.mul_le_mul_right _ hdigits
        _ ≤ 2 ^ 49 * (10 ^ p * 10 ^ 23) := hunits
        _ ≤ 2 ^ 49 * (10 ^ p * 10 ^ j) := Nat.mul_le_mul_left _ (Nat.mul_le_mul_left _ hpow)
    rw [div_div, div_mul_eq_mul_div, lt_div_iff₀ (by positivity)] at hlarge
    exact absurd hlarge (not_lt.mpr (by exact_mod_cast hle))
  have hquotient := near_div_power hn hdigits hp.le (Nat.le_refl 52) hfirst
  have hnear := near_ratio hquotient (near_power_exact hexact) (by positivity) (by positivity)
    (power_pos j)
  rw [rank_div hfinite (one_le_power j)]
  exact rawRank_near (power_pos j) (by decide) hr hnear

end

theorem ofNat_ne_zero {n : Nat} (hn : 0 < n) : ofNat n ≠ zero := by
  intro hzero
  have hone := one_le_units_ofNat hn
  rw [hzero] at hone
  exact absurd one_pos (Nat.not_lt.mpr hone)

theorem rank_shrink {n k r : Nat} (hn : 0 < n) (hdigits : n ≤ 10 ^ 17) (hk : k ≤ 616)
    (hr : Around r ((n : ℚ) / 10 ^ k * one)) :
    (shrink (ofNat n) k).rank ≤ r + 3 ∧ r ≤ (shrink (ofNat n) k).rank + 3 := by
  by_cases hshort : k ≤ 308
  · rw [shrink, if_pos hshort]
    have hrank := rank_div_power hn hdigits hshort hr
    omega
  · obtain ⟨p, j, hp, rfl, hlong⟩ := shrink_long (by omega) hk (ofNat_ne_zero hn)
    rw [pow_add, ← div_div] at hr
    rw [hlong]
    by_cases hsmall : (n : ℚ) / 10 ^ p / 10 ^ j * one ≤ 2 ^ 49
    · have hrank := rank_div_div_small hn hdigits hp (by omega) hr hsmall
      omega
    · exact rank_div_div_large hn hdigits hp (by omega) hr (by omega) (not_le.mp hsmall)

/- What is written for a finite number other than zero is in reach of the two powers of ten. -/

section
variable (hx : x.IsFinite) (hzero : x ≠ zero)
include hzero

theorem digits_written_pos : 0 < x.written.digits := by
  refine Nat.pos_of_ne_zero fun h => hzero ?_
  rw [← ofDecimal_written x, ofDecimal, if_pos h]

theorem le_exponent_written : -616 ≤ x.written.exponent := by
  by_contra hlow
  obtain ⟨k, hk⟩ : ∃ k : Nat, x.written.exponent = -k := ⟨x.written.exponent.natAbs, by omega⟩
  have hnumerator : x.written.numerator = x.written.digits := by
    rw [Decimal.numerator, Int.toNat_of_nonpos (by omega)]
    exact Nat.mul_one _
  have hsmall : 2 * (x.written.digits * one) < x.written.denominator := by
    obtain ⟨j, hj, hpower⟩ : ∃ j, j = 617 ∧ 2 * (10 ^ 17 * one) < 10 ^ j :=
      ⟨617, rfl, by decide +kernel⟩
    rw [Decimal.denominator, hk, neg_neg, Int.toNat_natCast]
    calc
      2 * (x.written.digits * one) ≤ 2 * (10 ^ 17 * one) :=
        Nat.mul_le_mul_left 2 (Nat.mul_le_mul_right one x.digits_written_le)
      _ < 10 ^ j := hpower
      _ ≤ 10 ^ k := Nat.pow_le_pow_right (by decide) (by omega)
  refine hzero ?_
  rw [← ofDecimal_written x, ofDecimal_eq_round, hnumerator, round_eq_zero hsmall]

include hx

theorem exponent_written_le : x.written.exponent ≤ 308 := by
  by_contra hhigh
  obtain ⟨k, hk⟩ := Int.eq_ofNat_of_zero_le (show 0 ≤ x.written.exponent by omega)
  have hfinite : (ofNat x.written.numerator).IsFinite := by
    rwa [← ofDecimal_of_nonneg (by omega), ofDecimal_written]
  have hlarge : overflow ≤ x.written.numerator := by
    obtain ⟨j, hj, -, hpower⟩ := overflow_bounds
    rw [Decimal.numerator, hk, Int.toNat_natCast]
    calc
      overflow ≤ 10 ^ (j + 1) := hpower
      _ ≤ 10 ^ k := Nat.pow_le_pow_right (by decide) (by omega)
      _ ≤ x.written.digits * 10 ^ k := Nat.le_mul_of_pos_left _ (digits_written_pos hzero)
  exact absurd ((isFinite_ofNat_iff _).mp hfinite) (Nat.not_lt.mpr hlarge)

end

theorem reread_least : ∀ r ≤ 3, (ofRank r).reread = ofRank r ∧
    size (ofRank r).written = .ok (ofRank r) := by decide +kernel

theorem reread_zero : zero.reread = zero := (reread_least 0 (Nat.zero_le 3)).1

/-- Close to infinity a product might be too large. These numbers come back all the same. -/
theorem reread_greatest (hx : x.IsFinite) (hlast : infinity.rank ≤ x.rank + 2) :
    x.reread.IsFinite ∧ x.reread.rank ≤ x.rank + 3 ∧ x.rank ≤ x.reread.rank + 3 := by
  have hcases : x.rank = 0x7feffffffffffffe ∨ x.rank = 0x7fefffffffffffff := by
    simp only [IsFinite, infinity] at hx hlast
    omega
  rw [← ofRank_rank x]
  rcases hcases with h | h
  · rw [h]
    decide +kernel
  · rw [h]
    decide +kernel

theorem reread_near (hx : x.IsFinite) :
    x.reread.IsFinite ∧ x.reread.rank ≤ x.rank + 3 ∧ x.rank ≤ x.reread.rank + 3 := by
  by_cases hlast : infinity.rank ≤ x.rank + 2
  · exact reread_greatest hx hlast
  by_cases hzero : x = zero
  · rw [hzero, reread_zero]
    exact ⟨hzero ▸ hx, Nat.le_add_right _ _, Nat.le_add_right _ _⟩
  have hpos := digits_written_pos hzero
  have hlow := le_exponent_written hzero
  have hhigh := exponent_written_le hx hzero
  have hdigits := x.digits_written_le
  have hr := around_ofDecimal (ofDecimal_written x) hx
  rw [Decimal.units] at hr
  unfold reread
  dsimp only
  generalize x.written = d at *
  obtain ⟨n, e⟩ := d
  dsimp only at *
  by_cases he : e < 0
  · obtain ⟨k, rfl⟩ : ∃ k : Nat, e = -k := ⟨e.natAbs, by omega⟩
    rw [zpow_neg, zpow_natCast, ← div_eq_mul_inv] at hr
    rw [if_pos he, Int.natAbs_neg, Int.natAbs_natCast]
    exact ⟨Nat.lt_of_le_of_lt (rank_shrink_le _ _)
      (isFinite_ofNat_top (hdigits.trans (by decide))), rank_shrink hpos hdigits (by omega) hr⟩
  · obtain ⟨k, rfl⟩ := Int.eq_ofNat_of_zero_le (Int.not_lt.mp he)
    rw [zpow_natCast] at hr
    rw [if_neg he, Int.toNat_natCast]
    have hrank := rawRank_grow hpos hdigits (by omega) hr
    have hfinite : ((ofNat n).mul (power k)).IsFinite :=
      (isFinite_round_iff _ _).mpr (by omega)
    have hvalue := rank_round hfinite
    rw [← mul] at hvalue
    exact ⟨hfinite, by omega, by omega⟩

theorem reread_eq_zero (hx : x.IsFinite) : x.reread = zero ↔ x = zero := by
  by_cases hsmall : x.rank ≤ 3
  · have hsame := (reread_least x.rank hsmall).1
    rw [ofRank_rank] at hsame
    rw [hsame]
  · have hnear := (reread_near hx).2.2
    constructor <;> rintro h
    · rw [h] at hnear
      exact absurd hnear (by simp only [zero]; omega)
    · rw [h] at hsmall
      exact absurd (Nat.zero_le 3) hsmall

theorem size_written (hx : x.IsFinite) : size x.written = .ok x.reread := by
  by_cases hzero : x = zero
  · rw [hzero, reread_zero]
    exact (reread_least 0 (Nat.zero_le 3)).2
  have hfinite := (reread_near hx).1
  have hhigh := exponent_written_le hx hzero
  unfold reread at hfinite ⊢
  unfold size
  dsimp only at hfinite ⊢
  by_cases hlow : x.written.exponent < 0
  · rw [if_pos hlow, if_pos hlow]
  · rw [if_neg hlow] at hfinite ⊢
    rw [if_neg hlow, if_neg (by omega), if_pos hfinite]

/- Where nothing rounds before the last step, the number itself comes back. -/

theorem div_of_exact {m p : Nat} (hm : (ofNat m).units = m * one)
    (hp : (ofNat p).units = p * one) : (ofNat m).div (ofNat p) = round m p := by
  rw [div, hm, hp, round_mul_right m p one_pos]

theorem reread_of_exact (hdigits : (ofNat x.written.digits).units = x.written.digits * one)
    (hexponent : x.written.exponent.natAbs ≤ 22) : x.reread = x := by
  have hpower := power_exact x.written.exponent.natAbs hexponent
  have hround := ofDecimal_written x
  unfold reread
  dsimp only
  generalize x.written = d at *
  obtain ⟨n, e⟩ := d
  dsimp only at *
  by_cases he : e < 0
  · obtain ⟨k, rfl⟩ : ∃ k : Nat, e = -k := ⟨e.natAbs, by omega⟩
    rw [Int.natAbs_neg, Int.natAbs_natCast] at hpower hexponent
    have hnumerator : Decimal.numerator ⟨n, -k⟩ = n := by
      rw [Decimal.numerator, Int.toNat_neg_natCast]
      exact Nat.mul_one n
    have hdenominator : Decimal.denominator ⟨n, -k⟩ = Nat.pow 10 k := by
      rw [Decimal.denominator, neg_neg, Int.toNat_natCast]
    rw [ofDecimal_eq_round, hnumerator, hdenominator] at hround
    rw [if_pos he, Int.natAbs_neg, Int.natAbs_natCast, shrink, if_pos (by omega)]
    exact (div_of_exact hdigits hpower).trans hround
  · obtain ⟨k, rfl⟩ := Int.eq_ofNat_of_zero_le (Int.not_lt.mp he)
    rw [ofDecimal_of_nonneg (Int.not_lt.mp he), Decimal.numerator, Int.toNat_natCast] at hround
    rw [if_neg he, Int.toNat_natCast]
    exact (mul_of_exact hdigits hpower).trans hround

theorem reread_ofNat {n : Nat} (hn : 10 * n ≤ 2 ^ 54) : (ofNat n).reread = ofNat n := by
  rcases Nat.eq_zero_or_pos n with rfl | hpos
  · have hzero : ofNat 0 = zero := round_eq_zero (by simp)
    rw [hzero, reread_zero]
  have hlt : n < 2 ^ 53 := by omega
  obtain ⟨hexponent, hnumerator⟩ := shortest_ofNat .even hpos hlt
  have hdigits : 0 < ((ofNat n).shortest .even).digits := by
    refine Nat.pos_of_ne_zero fun hzero => ?_
    rw [Decimal.numerator, hzero, Nat.zero_mul] at hnumerator
    omega
  have hleading : ((ofNat n).shortest .even).leading < 16 := by
    by_contra hlarge
    have hle := Decimal.le_numerator (k := 16) hdigits hexponent (by omega)
    omega
  have hwritten : (ofNat n).written = ⟨n * 10, -1⟩ := by
    rw [written, if_pos ⟨hexponent, hleading⟩, hnumerator]
  have htwice : n * 10 = 5 * n * 2 ^ 1 := by omega
  have hbinade : 2 * binade = 2 ^ 53 := by decide
  have hfinite : (ofNat (5 * n * 2 ^ 1)).IsFinite :=
    isFinite_ofNat_top (Nat.le_trans (by omega : _ ≤ 2 ^ 54) (by decide))
  refine reread_of_exact ?_ ?_
  · rw [hwritten]
    dsimp only
    rw [htwice]
    exact units_ofNat (by omega) hfinite
  · rw [hwritten]
    exact Nat.le_of_ble_eq_true rfl

end Magnitude
end Rulebook
