import Mathlib.Algebra.Order.Field.Power
import Rulebook.Proofs.Binary64.Near
import Rulebook.Proofs.Binary64.Nearest

/-! The shortest digits of a magnitude read back as that magnitude. Seventeen digits are enough:
decimals of that length stand closer together than the middles around a magnitude. -/

namespace Rulebook

namespace Decimal

def units (d : Decimal) : ℚ := d.digits * 10 ^ d.exponent * Magnitude.one

theorem quotient_eq_units (d : Decimal) :
    Magnitude.quotient d.numerator d.denominator = d.units := by
  have hpow (n : Nat) : ((Nat.pow 10 n : Nat) : ℚ) = 10 ^ n := by push_cast [Nat.pow_eq]; rfl
  obtain ⟨n, e⟩ := d
  rw [Magnitude.quotient, numerator, denominator, units, Nat.cast_mul, hpow, hpow]
  dsimp only
  rcases Int.eq_nat_or_neg e with ⟨k, rfl | rfl⟩
  · rw [Int.toNat_natCast, Int.toNat_neg_natCast, zpow_natCast]
    ring
  · rw [neg_neg, Int.toNat_natCast, Int.toNat_neg_natCast, zpow_neg, zpow_natCast]
    ring

theorem denominator_of_nonneg {d : Decimal} (h : 0 ≤ d.exponent) : d.denominator = 1 := by
  rw [denominator, Int.toNat_of_nonpos (by omega), Nat.pow_eq, Nat.pow_zero]

theorem units_of_nonneg {d : Decimal} (h : 0 ≤ d.exponent) :
    d.units = d.numerator * Magnitude.one := by
  rw [← quotient_eq_units, denominator_of_nonneg h, Magnitude.quotient, Nat.cast_one, div_one]

theorem units_mul_pow (n k j : Nat) :
    (⟨n, (k : Int) - j⟩ : Decimal).units * (Nat.pow 10 j : Nat) =
      (n * Nat.pow 10 k : Nat) * Magnitude.one := by
  have hpow (n : Nat) : ((Nat.pow 10 n : Nat) : ℚ) = 10 ^ n := by push_cast [Nat.pow_eq]; rfl
  have hzpow : (10 : ℚ) ^ ((k : Int) - j) * 10 ^ j = 10 ^ k := by
    rw [zpow_sub₀ (by norm_num), zpow_natCast, zpow_natCast]
    exact div_mul_cancel₀ _ (by positivity)
  rw [units, Nat.cast_mul, hpow, hpow, ← hzpow]
  ring

/-- Without its last `k` places a number is no greater, and adding one to the last place that is
left makes it greater. -/
theorem units_cut (n j k : Nat) {v : ℚ} (hlow : (n : ℚ) * Magnitude.one ≤ v * Nat.pow 10 j)
    (hhigh : v * Nat.pow 10 j < (n + 1) * Magnitude.one) :
    (⟨n / Nat.pow 10 k, (k : Int) - j⟩ : Decimal).units ≤ v ∧
      v < (⟨n / Nat.pow 10 k + 1, (k : Int) - j⟩ : Decimal).units := by
  have hstep : 0 < Nat.pow 10 k := Nat.pow_pos (by decide)
  have hpos : (0 : ℚ) < (Nat.pow 10 j : Nat) := Nat.cast_pos.mpr (Nat.pow_pos (by decide))
  have hbelow : n / Nat.pow 10 k * Nat.pow 10 k ≤ n := Nat.div_mul_le_self _ _
  have habove : n + 1 ≤ (n / Nat.pow 10 k + 1) * Nat.pow 10 k := by
    rw [Nat.mul_comm (_ + 1)]
    exact Nat.lt_mul_div_succ n hstep
  constructor
  · refine le_of_mul_le_mul_right (le_trans ?_ hlow) hpos
    rw [units_mul_pow]
    exact mul_le_mul_of_nonneg_right (by exact_mod_cast hbelow) (Nat.cast_nonneg _)
  · refine lt_of_mul_lt_mul_right (hhigh.trans_le ?_) hpos.le
    rw [units_mul_pow]
    exact mul_le_mul_of_nonneg_right (by exact_mod_cast habove) (Nat.cast_nonneg _)

theorem units_succ (d : Decimal) :
    (⟨d.digits + 1, d.exponent⟩ : Decimal).units =
      d.units + 10 ^ d.exponent * Magnitude.one := by
  rw [units, units, Nat.cast_add, Nat.cast_one, add_mul, add_mul, one_mul]

/- A decimal without the zeros at its end has the same value, and no more digits. -/

theorem units_strip (n : Nat) (d : Decimal) : (strip n d).units = d.units := by
  fun_induction strip n d with
  | case1 d => rfl
  | case2 n d h ih =>
    have hdigits : (d.digits : ℚ) = (d.digits / 10 : Nat) * 10 := by
      exact_mod_cast (Nat.div_mul_cancel (Nat.dvd_of_mod_eq_zero h.1)).symm
    rw [ih, units, units, hdigits, zpow_add₀ (by norm_num)]
    ring
  | case3 n d h => rfl

theorem units_trim (d : Decimal) : d.trim.units = d.units := units_strip _ d

theorem digits_strip_le (n : Nat) (d : Decimal) : (strip n d).digits ≤ d.digits := by
  fun_induction strip n d with
  | case1 d => exact Nat.le_refl _
  | case2 n d h ih => exact ih.trans (Nat.div_le_self _ _)
  | case3 n d h => exact Nat.le_refl _

theorem digits_trim_le (d : Decimal) : d.trim.digits ≤ d.digits := digits_strip_le _ d

theorem exponent_le_strip (n : Nat) (d : Decimal) : d.exponent ≤ (strip n d).exponent := by
  fun_induction strip n d with
  | case1 d => exact Int.le_refl _
  | case2 n d h ih => exact (Int.le_add_one (Int.le_refl _)).trans ih
  | case3 n d h => exact Int.le_refl _

theorem exponent_le_trim (d : Decimal) : d.exponent ≤ d.trim.exponent := exponent_le_strip _ d

end Decimal

namespace Magnitude
variable {x : Magnitude}

theorem ofRank_rank (x : Magnitude) : ofRank x.rank = x := by
  obtain ⟨r, hr⟩ := x
  simp only [ofRank, Nat.min_eq_left (show r ≤ infinity.rank from hr)]

theorem round_congr {n d n' d' : Nat} (hd : 0 < d) (hd' : 0 < d')
    (h : quotient n d = quotient n' d') : round n d = round n' d' := by
  have hone : (one : ℚ) ≠ 0 := Nat.cast_ne_zero.mpr one_pos.ne'
  have hcross : n * d' = n' * d := by
    rw [quotient, quotient, div_eq_div_iff (by positivity) (by positivity), mul_right_comm,
      mul_right_comm (n' : ℚ), mul_left_inj' hone] at h
    exact_mod_cast h
  rw [← round_mul_right n d hd', ← round_mul_right n' d' hd, hcross, Nat.mul_comm d']

theorem ofDecimal_congr {d d' : Decimal} (h : d.units = d'.units) : ofDecimal d = ofDecimal d' := by
  rw [ofDecimal_eq_round, ofDecimal_eq_round]
  refine round_congr d.denominator_pos d'.denominator_pos ?_
  rw [d.quotient_eq_units, d'.quotient_eq_units, h]

theorem ofDecimal_trim (d : Decimal) : ofDecimal d.trim = ofDecimal d :=
  ofDecimal_congr d.units_trim

theorem around_ofDecimal {d : Decimal} (h : ofDecimal d = x) (hx : x.IsFinite) :
    Around x.rank d.units := by
  subst h
  rw [ofDecimal_eq_round] at hx ⊢
  rw [rank_round hx, ← d.quotient_eq_units]
  exact around_rawRank d.numerator d.denominator_pos

theorem ofDecimal_eq {d : Decimal} {r : Nat} (hr : x.rank = r + 1) (hlow : middle r < d.units)
    (hhigh : d.units < middle (r + 1)) : ofDecimal d = x := by
  rw [← d.quotient_eq_units] at hlow hhigh
  rw [ofDecimal_eq_round, round_eq, rawRank_eq d.denominator_pos hlow hhigh, ← hr, ofRank_rank]

def width (x : Magnitude) : Nat := (Decimal.digitChars x.places).length

theorem pow_le_iff_lt_width {k : Nat} (hk : 0 < k) : 10 ^ k ≤ x.places ↔ k < x.width := by
  rw [← not_iff_not, not_le, not_lt]
  exact (Nat.length_toDigits_le_iff (by decide) hk).symm

theorem units_pos (hx : x.rank ≠ 0) : 0 < x.units := by
  have hpos := unitsAt_strictMono (Nat.pos_of_ne_zero hx)
  rw [unitsAt_rank] at hpos
  omega

theorem pow_le_places (hx : x.rank ≠ 0) : 10 ^ 17 ≤ x.places := by
  have hfirst : 10 ^ 17 * one ≤ Nat.pow 10 400 := by decide +kernel
  rw [places, Nat.le_div_iff_mul_le one_pos]
  exact hfirst.trans (Nat.le_mul_of_pos_left _ (units_pos hx))

theorem lt_width (hx : x.rank ≠ 0) : 17 < x.width :=
  (pow_le_iff_lt_width (by decide)).mp (pow_le_places hx)

section
variable {n : Nat} (hn : n ≤ x.width)
include hn

theorem leadingDigits_eq : x.leadingDigits n =
    ⟨x.places / Nat.pow 10 (x.width - n), ((x.width - n : Nat) : Int) - (400 : Nat)⟩ := by
  rw [Nat.cast_sub hn]
  simp only [leadingDigits]
  exact if_pos hn

theorem leadingDigits_bounds :
    (x.leadingDigits n).units ≤ x.units ∧
      x.units < (⟨(x.leadingDigits n).digits + 1, (x.leadingDigits n).exponent⟩ : Decimal).units := by
  rw [leadingDigits_eq hn]
  -- The number of places is kept behind a variable, so that no tactic computes a power of ten.
  obtain ⟨j, hj⟩ : ∃ j, j = 400 := ⟨_, rfl⟩
  have hlow : x.places * one ≤ x.units * Nat.pow 10 j := by
    unfold places
    rw [← hj]
    exact Nat.div_mul_le_self _ _
  have hhigh : x.units * Nat.pow 10 j < (x.places + 1) * one := by
    unfold places
    rw [← hj, Nat.mul_comm (_ + 1)]
    exact Nat.lt_mul_div_succ _ one_pos
  rw [← hj]
  exact Decimal.units_cut _ j _ (by exact_mod_cast hlow) (by exact_mod_cast hhigh)

theorem le_digits_leadingDigits (hpos : 1 < n) : 10 ^ (n - 1) ≤ (x.leadingDigits n).digits := by
  have hlength : 10 ^ (x.width - 1) ≤ x.places := (pow_le_iff_lt_width (by omega)).mpr (by omega)
  rw [leadingDigits_eq hn]
  generalize x.width = w at hn hlength ⊢
  generalize x.places = p at hlength ⊢
  have hpow : 10 ^ (n - 1) * 10 ^ (w - n) = 10 ^ (w - 1) := by
    rw [← Nat.pow_add]
    congr 1
    omega
  exact (Nat.le_div_iff_mul_le (Nat.pow_pos (by decide))).mpr (hpow ▸ hlength)

end

/-- Seventeen leading digits or their successor read back: if neither did, they would stand further
apart than the middles around the value, and so many digits stand closer. -/
theorem reads_back (hx : x.rank ≠ 0) :
    ofDecimal (x.leadingDigits 17) = x ∨
      ofDecimal ⟨(x.leadingDigits 17).digits + 1, (x.leadingDigits 17).exponent⟩ = x := by
  obtain ⟨r, hr⟩ := Nat.exists_eq_succ_of_ne_zero hx
  have hwidth := lt_width hx
  obtain ⟨hlow, hhigh⟩ := leadingDigits_bounds hwidth.le
  have hdigits := le_digits_leadingDigits hwidth.le (by decide)
  generalize x.leadingDigits 17 = d at hlow hhigh hdigits ⊢
  have hvalue : (x.units : ℚ) = unitsAt (r + 1) := by rw [← unitsAt_rank, hr]
  have hbelow := middle_lt_unitsAt r
  have habove := unitsAt_lt_middle (r + 1)
  by_contra hneither
  obtain ⟨hnotlow, hnothigh⟩ := not_or.mp hneither
  have hd : d.units ≤ middle r := by
    by_contra hlt
    exact hnotlow (ofDecimal_eq hr (not_le.mp hlt) (by linarith))
  have hd' : middle (r + 1) ≤ (⟨d.digits + 1, d.exponent⟩ : Decimal).units := by
    by_contra hlt
    exact hnothigh (ofDecimal_eq hr (by linarith) (not_le.mp hlt))
  -- The step of the last digit would be no smaller than the gap below the value.
  have hstep := d.units_succ
  have hmany : 10 ^ 16 * (10 ^ d.exponent * one) ≤ d.units := by
    have hnonneg : (0 : ℚ) ≤ 10 ^ d.exponent * one :=
      mul_nonneg (zpow_nonneg (by norm_num) _) (Nat.cast_nonneg one)
    rw [Decimal.units, mul_assoc]
    exact mul_le_mul_of_nonneg_right (by exact_mod_cast hdigits) hnonneg
  generalize (10 : ℚ) ^ d.exponent * one = step at hstep hmany
  have hgap : (gap r : ℚ) ≤ step := by
    have hmono : (gap r : ℚ) ≤ gap (r + 1) := by exact_mod_cast gap_mono (Nat.le_succ r)
    have hlower := middle_eq_succ r
    have hupper := middle_eq (r + 1)
    linarith
  have hfew : (unitsAt (r + 1) : ℚ) ≤ 2 ^ 53 * gap r := by exact_mod_cast unitsAt_succ_le r
  have hpos : (0 : ℚ) < gap r := by exact_mod_cast gap_pos r
  linarith

/- The search finds one of the two decimals of the first length that has one that reads back. -/

section
variable {tie : Tie} {n : Nat} {d : Decimal}

theorem shortestAt?_eq_some (h : shortestAt? tie x n = some d) :
    ofDecimal d = x ∧ (d = x.leadingDigits n ∨
      d = ⟨(x.leadingDigits n).digits + 1, (x.leadingDigits n).exponent⟩) := by
  unfold shortestAt? at h
  dsimp only at h
  split at h
  · next hlow hhigh =>
    cases h
    split
    · exact ⟨of_decide_eq_true hhigh, .inr rfl⟩
    · exact ⟨of_decide_eq_true hlow, .inl rfl⟩
  · next hlow _ =>
    cases h
    exact ⟨of_decide_eq_true hlow, .inl rfl⟩
  · next _ hhigh =>
    cases h
    exact ⟨of_decide_eq_true hhigh, .inr rfl⟩
  · cases h

theorem isSome_shortestAt? (h : ofDecimal (x.leadingDigits n) = x ∨
      ofDecimal ⟨(x.leadingDigits n).digits + 1, (x.leadingDigits n).exponent⟩ = x) :
    (shortestAt? tie x n).isSome := by
  unfold shortestAt?
  dsimp only
  split
  · rfl
  · rfl
  · rfl
  · next hlow hhigh =>
    exact absurd h (not_or.mpr ⟨of_decide_eq_false hlow, of_decide_eq_false hhigh⟩)

/-- The search takes no length that is greater than one that has a decimal. -/
theorem search_of_isSome {k m j : Nat} (hk : k ≤ j) (hj : j < k + m)
    (h : (shortestAt? tie x j).isSome) :
    ∃ n d, k ≤ n ∧ n ≤ j ∧ shortestAt? tie x n = some d ∧ search tie x m k = some d := by
  induction m generalizing k with
  | zero => omega
  | succ m ih =>
    rw [search]
    cases hfirst : shortestAt? tie x k with
    | some d => exact ⟨k, d, Nat.le_refl k, hk, hfirst, rfl⟩
    | none =>
      have hne : k ≠ j := by
        rintro rfl
        rw [hfirst] at h
        cases h
      obtain ⟨n, d, hkn, hnj, hd, hsearch⟩ := ih (k := k + 1) (by omega) (by omega)
      exact ⟨n, d, by omega, hnj, hd, hsearch⟩

theorem shortest_of_isSome {j : Nat} (hx : x.rank ≠ 0) (hpos : 1 ≤ j) (hj : j ≤ 17)
    (h : (shortestAt? tie x j).isSome) :
    ∃ n d, 1 ≤ n ∧ n ≤ j ∧ shortestAt? tie x n = some d ∧ x.shortest tie = d.trim := by
  obtain ⟨n, d, hn, hnj, hd, hsearch⟩ := search_of_isSome (m := 17) hpos (by omega) h
  refine ⟨n, d, hn, hnj, hd, ?_⟩
  rw [shortest, if_neg hx, hsearch]

end

theorem digits_leadingDigits_lt {n : Nat} (hn : n ≤ x.width) (hpos : 0 < n) :
    (x.leadingDigits n).digits < 10 ^ n := by
  have hlength : x.places < 10 ^ x.width :=
    (Nat.length_toDigits_le_iff (by decide) (by omega)).mp (Nat.le_refl x.width)
  rw [leadingDigits_eq hn]
  generalize x.width = w at hn hlength ⊢
  generalize x.places = p at hlength ⊢
  have hpow : 10 ^ n * 10 ^ (w - n) = 10 ^ w := by
    rw [← Nat.pow_add, Nat.add_sub_cancel' hn]
  exact (Nat.div_lt_iff_lt_mul (Nat.pow_pos (by decide))).mpr (hpow ▸ hlength)

theorem shortest_of_rank_ne_zero (tie : Tie) (hx : x.rank ≠ 0) :
    ∃ n d, 1 ≤ n ∧ n ≤ 17 ∧ shortestAt? tie x n = some d ∧ x.shortest tie = d.trim :=
  shortest_of_isSome hx (by decide) (Nat.le_refl 17) (isSome_shortestAt? (reads_back hx))

theorem ofDecimal_shortest (tie : Tie) (x : Magnitude) : ofDecimal (x.shortest tie) = x := by
  by_cases hx : x.rank = 0
  · rw [shortest, if_pos hx, ← ofRank_rank x, hx]
    rfl
  · obtain ⟨n, d, -, -, hd, hshortest⟩ := shortest_of_rank_ne_zero tie hx
    rw [hshortest, ofDecimal_trim]
    exact (shortestAt?_eq_some hd).1

theorem digits_shortest_le (tie : Tie) (x : Magnitude) :
    (x.shortest tie).digits ≤ 10 ^ 17 := by
  by_cases hx : x.rank = 0
  · rw [shortest, if_pos hx]
    decide
  · obtain ⟨n, d, hpos, hn, hd, hshortest⟩ := shortest_of_rank_ne_zero tie hx
    have hlt := digits_leadingDigits_lt (hn.trans (lt_width hx).le) hpos
    have hpow : 10 ^ n ≤ 10 ^ 17 := Nat.pow_le_pow_right (by decide) hn
    rw [hshortest]
    refine d.digits_trim_le.trans ?_
    rcases (shortestAt?_eq_some hd).2 with rfl | rfl
    · omega
    · exact Nat.le_trans hlt hpow

/- Whole numbers of at most 53 binary digits are written as they are. -/

theorem units_ofNat_of_lt {n : Nat} (hn : n < 2 ^ 53) : (ofNat n).units = n * one := by
  have hfinite : (ofNat n).IsFinite :=
    (isFinite_ofNat_iff n).mpr (Nat.lt_trans hn (by decide +kernel))
  have hunits := units_ofNat (m := n) (e := 0) hn (by rwa [Nat.pow_zero, Nat.mul_one])
  rwa [Nat.pow_zero, Nat.mul_one] at hunits

theorem ofNat_inj {m n : Nat} (hn : n < 2 ^ 53) (h : ofNat m = ofNat n) : m = n := by
  by_cases hm : m < 2 ^ 53
  · have hunits := congrArg units h
    rw [units_ofNat_of_lt hm, units_ofNat_of_lt hn] at hunits
    exact Nat.eq_of_mul_eq_mul_right one_pos hunits
  · have hlast : (ofNat (2 ^ 53 - 1)).rank < (ofNat (2 ^ 53)).rank := by decide +kernel
    have hrank : (ofNat n).rank ≤ (ofNat (2 ^ 53 - 1)).rank := ofNat_mono (by omega)
    have hmono : (ofNat (2 ^ 53)).rank ≤ (ofNat m).rank := ofNat_mono (Nat.not_lt.mp hm)
    rw [h] at hmono
    exact absurd hmono (Nat.not_le.mpr (Nat.lt_of_le_of_lt hrank hlast))

theorem ofDecimal_of_nonneg {d : Decimal} (h : 0 ≤ d.exponent) :
    ofDecimal d = ofNat d.numerator := by
  rw [ofDecimal_eq_round, Decimal.denominator_of_nonneg h, ofNat]

theorem leadingDigits_ofNat {n : Nat} (hpos : 0 < n) (hn : n < 2 ^ 53) :
    ∃ j, 1 ≤ j ∧ j ≤ 17 ∧ (ofNat n).width = j + 400 ∧ (ofNat n).leadingDigits j = ⟨n, 0⟩ := by
  obtain ⟨p, hp⟩ : ∃ p, p = 400 := ⟨_, rfl⟩
  have hpow : 0 < 10 ^ p := Nat.pow_pos (by decide)
  have hplaces : (ofNat n).places = n * 10 ^ p := by
    unfold places
    rw [← hp, units_ofNat_of_lt hn, Nat.mul_right_comm, Nat.mul_div_cancel _ one_pos, Nat.pow_eq]
  have hlow : p < (ofNat n).width := by
    rw [← pow_le_iff_lt_width (by omega), hplaces]
    exact Nat.le_mul_of_pos_left _ hpos
  have hhigh : ¬ p + 16 < (ofNat n).width := by
    rw [← pow_le_iff_lt_width (by omega), hplaces, Nat.not_le, Nat.add_comm, Nat.pow_add]
    exact Nat.mul_lt_mul_of_pos_right (Nat.lt_trans hn (by decide)) hpow
  obtain ⟨j, hj⟩ := Nat.exists_eq_add_of_le hlow.le
  have hlead := leadingDigits_eq (x := ofNat n) (n := j) (by omega)
  refine ⟨j, by omega, by omega, by omega, ?_⟩
  have hcancel : n * 10 ^ p / Nat.pow 10 p = n := Nat.mul_div_cancel n hpow
  have hexponent : (p : Int) - (400 : Nat) = 0 := by omega
  rw [hlead, hplaces, hj, Nat.add_sub_cancel, hcancel, hexponent]

theorem shortest_ofNat (tie : Tie) {n : Nat} (hpos : 0 < n) (hn : n < 2 ^ 53) :
    0 ≤ ((ofNat n).shortest tie).exponent ∧ ((ofNat n).shortest tie).numerator = n := by
  have hx : (ofNat n).rank ≠ 0 := by
    intro hzero
    have hunits := units_ofNat_of_lt hn
    rw [← unitsAt_rank, hzero] at hunits
    exact absurd hunits.symm (Nat.mul_pos hpos one_pos).ne'
  obtain ⟨j, hj, hle, hwidth, hlead⟩ := leadingDigits_ofNat hpos hn
  have hreads : ofDecimal ((ofNat n).leadingDigits j) = ofNat n := by
    rw [hlead, ofDecimal_whole]
  have hsome : (shortestAt? tie (ofNat n) j).isSome := isSome_shortestAt? (.inl hreads)
  obtain ⟨k, d, hk, hkj, hd, hshortest⟩ := shortest_of_isSome hx hj hle hsome
  have hexponent : 0 ≤ d.exponent := by
    have hlast := leadingDigits_eq (x := ofNat n) (n := k) (by omega)
    rcases (shortestAt?_eq_some hd).2 with rfl | rfl <;> rw [hlast] <;> dsimp only <;> omega
  have htrim : 0 ≤ d.trim.exponent := hexponent.trans d.exponent_le_trim
  rw [hshortest]
  refine ⟨htrim, ofNat_inj hn ?_⟩
  rw [← ofDecimal_of_nonneg htrim, ofDecimal_trim]
  exact (shortestAt?_eq_some hd).1

end Magnitude
end Rulebook
