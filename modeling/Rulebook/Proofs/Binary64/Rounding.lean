import Mathlib.Algebra.Group.Nat.Defs
import Mathlib.Tactic.ByContra
import Mathlib.Tactic.SplitIfs
import Rulebook.Binary64

/-! Rounding to a magnitude keeps the order of numbers. So one bound tells which whole numbers have
a finite magnitude. -/

namespace Rulebook.Magnitude

/-- The exponent is kept behind a variable, so that no tactic computes the power. -/
theorem one_eq : ∃ e, e = 1074 ∧ one = 2 ^ e := by
  obtain ⟨e, he, hone⟩ : ∃ e, e = 1074 ∧ one = 1 <<< e := ⟨1074, rfl, rfl⟩
  exact ⟨e, he, hone.trans (Nat.one_shiftLeft e)⟩

theorem one_pos : 0 < one := by
  obtain ⟨e, -, hone⟩ := one_eq
  rw [hone]
  exact Nat.two_pow_pos e

theorem nearestEven_cases (n d : Nat) :
    (nearestEven n d = n / d ∧ 2 * (n % d) ≤ d ∨
      nearestEven n d = n / d + 1 ∧ d ≤ 2 * (n % d)) ∧
      (2 * (n % d) = d → nearestEven n d % 2 = 0) := by
  unfold nearestEven
  dsimp only
  split_ifs <;> omega

theorem nearestEven_bounds (n d : Nat) :
    n / d ≤ nearestEven n d ∧ nearestEven n d ≤ n / d + 1 := by
  have hcases := (nearestEven_cases n d).1
  omega

theorem nearestEven_mono {n m : Nat} (d : Nat) (h : n ≤ m) :
    nearestEven n d ≤ nearestEven m d := by
  have hq : n / d ≤ m / d := Nat.div_le_div_right h
  rcases Nat.lt_or_eq_of_le hq with hlt | heq
  · have hn := (nearestEven_bounds n d).2
    have hm := (nearestEven_bounds m d).1
    omega
  · have hr : n % d ≤ m % d := by
      have hn := Nat.div_add_mod n d
      have hm := Nat.div_add_mod m d
      rw [heq] at hn
      omega
    unfold nearestEven
    dsimp only
    rw [heq]
    split_ifs <;> omega

def rawRank (n d : Nat) : Nat :=
  let scaled := n * one
  let shift := (scaled / d).log2 - 52
  shift * binade + nearestEven scaled (d <<< shift)

theorem round_eq (n d : Nat) : round n d = ofRank (rawRank n d) := rfl

theorem log2_mono {x y : Nat} (h : x ≤ y) : x.log2 ≤ y.log2 := by
  by_cases hx : x = 0
  · simp [hx]
  · exact (Nat.le_log2 (by omega)).mpr (Nat.le_trans (Nat.log2_self_le hx) h)

/- A quotient that is cut to 53 binary digits lies within one binade. If it has fewer digits, it is
not cut and may lie below. -/

theorem cut_lt (x : Nat) : x / 2 ^ (x.log2 - 52) < 2 * binade := by
  rw [Nat.div_lt_iff_lt_mul (Nat.two_pow_pos _)]
  calc
    x < 2 ^ (x.log2 + 1) := Nat.lt_log2_self
    _ ≤ 2 ^ (53 + (x.log2 - 52)) := Nat.pow_le_pow_right (by decide) (by omega)
    _ = 2 * binade * 2 ^ (x.log2 - 52) := by rw [Nat.pow_add]; rfl

theorem binade_le_cut {x : Nat} (h : 52 ≤ x.log2) : binade ≤ x / 2 ^ (x.log2 - 52) := by
  have hx : x ≠ 0 := by
    rintro rfl
    simp at h
  rw [Nat.le_div_iff_mul_le (Nat.two_pow_pos _)]
  calc
    binade * 2 ^ (x.log2 - 52) = 2 ^ (52 + (x.log2 - 52)) := by rw [Nat.pow_add]; rfl
    _ = 2 ^ x.log2 := by rw [Nat.add_sub_cancel' h]
    _ ≤ x := Nat.log2_self_le hx

theorem div_shift (a d s : Nat) : a / (d <<< s) = a / d / 2 ^ s := by
  rw [Nat.shiftLeft_eq, Nat.div_div_eq_div_mul]

/-- Of two numbers the lesser one has no higher rank. Where it has fewer binary digits, even a carry
takes it no further than the first rank of the other's binade. -/
theorem rawRank_mono {n m : Nat} (d : Nat) (h : n ≤ m) : rawRank n d ≤ rawRank m d := by
  unfold rawRank
  dsimp only
  have hscaled : n * one ≤ m * one := Nat.mul_le_mul_right one h
  have hdigits := log2_mono (Nat.div_le_div_right (c := d) hscaled)
  generalize n * one = a at hscaled hdigits ⊢
  generalize m * one = b at hscaled hdigits ⊢
  by_cases hs : (a / d).log2 - 52 = (b / d).log2 - 52
  · rw [hs]
    exact Nat.add_le_add_left (nearestEven_mono _ hscaled) _
  · have hlow := (nearestEven_bounds a (d <<< ((a / d).log2 - 52))).2
    have hhigh := (nearestEven_bounds b (d <<< ((b / d).log2 - 52))).1
    rw [div_shift] at hlow hhigh
    have hcut := cut_lt (a / d)
    have hfull := binade_le_cut (x := b / d) (by omega)
    have hshift : ((a / d).log2 - 52 + 1) * binade ≤ ((b / d).log2 - 52) * binade :=
      Nat.mul_le_mul_right binade (by omega)
    rw [Nat.succ_mul] at hshift
    omega

theorem ofNat_mono {n m : Nat} (h : n ≤ m) : (ofNat n).rank ≤ (ofNat m).rank := by
  have hraw := rawRank_mono 1 h
  rw [ofNat, ofNat, round_eq, round_eq]
  exact Nat.le_min.mpr ⟨Nat.le_trans (Nat.min_le_left _ _) hraw, Nat.min_le_right _ _⟩

theorem nearestEven_mul_right (n d : Nat) {c : Nat} (hc : 0 < c) :
    nearestEven (n * c) (d * c) = nearestEven n d := by
  have hless (a b : Nat) : a * c < b * c ↔ a < b := Nat.mul_lt_mul_right hc
  unfold nearestEven
  dsimp only
  rw [Nat.mul_div_mul_right n d hc, Nat.mul_mod_mul_right, ← Nat.mul_assoc]
  simp only [hless]

theorem round_mul_right (n d : Nat) {c : Nat} (hc : 0 < c) : round (n * c) (d * c) = round n d := by
  have hscaled : n * c * one = n * one * c := Nat.mul_right_comm n c one
  have hshift (s : Nat) : (d * c) <<< s = d <<< s * c := by
    rw [Nat.shiftLeft_eq, Nat.shiftLeft_eq, Nat.mul_right_comm]
  rw [round_eq, round_eq, rawRank, rawRank, hscaled, Nat.mul_div_mul_right _ d hc, hshift,
    nearestEven_mul_right _ _ hc]

theorem mul_of_exact {m p : Nat} (hm : (ofNat m).units = m * one)
    (hp : (ofNat p).units = p * one) : (ofNat m).mul (ofNat p) = ofNat (m * p) := by
  have hround := round_mul_right (m * p) 1 (Nat.mul_pos one_pos one_pos)
  rw [Nat.one_mul] at hround
  rw [mul, hm, hp, Nat.mul_mul_mul_comm, hround, ofNat]

/-- The whole number in the middle between the greatest finite magnitude and `2 ^ 1024`. -/
def overflow : Nat := Nat.pow 2 1024 - Nat.pow 2 970

/-- The last power of ten that stays finite. It is kept behind a variable, so that no tactic
computes it. -/
theorem overflow_bounds :
    ∃ j, j = 308 ∧ Nat.pow 10 j < overflow ∧ overflow ≤ Nat.pow 10 (j + 1) :=
  ⟨308, rfl, by decide +kernel⟩

theorem isFinite_ofNat_iff (n : Nat) : (ofNat n).IsFinite ↔ n < overflow := by
  have hlast : (ofNat (overflow - 1)).IsFinite := by decide +kernel
  have hfirst : ¬ (ofNat overflow).IsFinite := by decide +kernel
  constructor
  · intro hn
    by_contra hle
    exact hfirst (Nat.lt_of_le_of_lt (ofNat_mono (Nat.not_lt.mp hle)) hn)
  · intro hn
    exact Nat.lt_of_le_of_lt (ofNat_mono (Nat.le_sub_one_of_lt hn)) hlast

theorem eq_infinity {x : Magnitude} (h : ¬ x.IsFinite) : x = infinity := by
  obtain ⟨r, hr⟩ := x
  have hrank : r = infinity.rank := Nat.le_antisymm hr (Nat.not_lt.mp h)
  subst hrank
  rfl

theorem round_eq_zero {n d : Nat} (h : 2 * (n * one) < d) : round n d = zero := by
  have hless : n * one < d := by omega
  have hshift : d <<< (0 - 52) = d := Nat.shiftLeft_zero
  rw [round_eq, rawRank, Nat.div_eq_of_lt hless, Nat.log2_zero, hshift]
  have hzero : nearestEven (n * one) d = 0 := by
    unfold nearestEven
    dsimp only
    rw [Nat.mod_eq_of_lt hless, if_pos h, Nat.div_eq_of_lt hless]
  rw [hzero]
  rfl

theorem ofDecimal_eq_round (d : Decimal) : ofDecimal d = round d.numerator d.denominator := by
  unfold ofDecimal
  split_ifs with hdigits hhigh hlow
  · have hnumerator : d.numerator = 0 := by rw [Decimal.numerator, hdigits, Nat.zero_mul]
    rw [hnumerator, round_eq_zero (by simpa using d.denominator_pos)]
  · have hdenominator : d.denominator = 1 := by
      rw [Decimal.denominator, Int.toNat_of_nonpos (by omega)]
    have hlarge : overflow ≤ d.numerator := by
      obtain ⟨j, hj, -, hpower⟩ := overflow_bounds
      calc
        overflow ≤ 1 * Nat.pow 10 (j + 1) := (Nat.one_mul _).symm ▸ hpower
        _ ≤ d.numerator :=
          Nat.mul_le_mul (Nat.pos_of_ne_zero hdigits) (Nat.pow_le_pow_right (by decide) (by omega))
    have hround : ¬ (round d.numerator 1).IsFinite :=
      (isFinite_ofNat_iff d.numerator).not.mpr (Nat.not_lt.mpr hlarge)
    rw [hdenominator, eq_infinity hround]
  · have hnumerator : d.numerator = d.digits := by
      rw [Decimal.numerator, Int.toNat_of_nonpos (by omega)]
      exact Nat.mul_one _
    -- One place behind the point outweighs one binary digit, and 400 more of them outweigh a unit.
    have hsmall : 2 * (d.digits * one) < d.denominator := by
      obtain ⟨j, hj, hpower⟩ : ∃ j ≤ 400, 2 * (2 * one) ≤ Nat.pow 10 j :=
        ⟨400, Nat.le_refl _, by decide +kernel⟩
      calc
        2 * (d.digits * one) < 2 * (2 ^ (d.digits.log2 + 1) * one) :=
          Nat.mul_lt_mul_of_pos_left
            (Nat.mul_lt_mul_of_pos_right Nat.lt_log2_self one_pos) (by decide)
        _ = 2 ^ d.digits.log2 * (2 * (2 * one)) := by
          rw [Nat.pow_succ]
          ac_rfl
        _ ≤ 10 ^ d.digits.log2 * Nat.pow 10 j :=
          Nat.mul_le_mul (Nat.pow_le_pow_left (by decide) _) hpower
        _ = Nat.pow 10 (d.digits.log2 + j) := (Nat.pow_add 10 _ _).symm
        _ ≤ d.denominator := Nat.pow_le_pow_right (by decide) (by omega)
    rw [hnumerator, round_eq_zero hsmall]
  · rfl

theorem ofDecimal_whole (n : Nat) : ofDecimal ⟨n, 0⟩ = ofNat n := by
  have hnumerator : Decimal.numerator ⟨n, 0⟩ = n := Nat.mul_one n
  rw [ofDecimal_eq_round, hnumerator]
  rfl

end Rulebook.Magnitude
