import Mathlib.Algebra.Order.Ring.Pow
import Mathlib.Tactic.Positivity
import Rulebook.Proofs.Binary64.Rank

/-! Numbers that a few roundings lie between. One rounding changes a number by no more than one part
in `2 ^ 53`, unless the number is very small. So a number that was rounded `k` times before takes a
rank that is at most `k` places off. -/

namespace Rulebook.Magnitude

/-- The greatest factor that one rounding changes a number by. -/
def drift : ℚ := 1 + 1 / 2 ^ 53

theorem one_le_drift : 1 ≤ drift := by norm_num [drift]

theorem drift_pos : 0 < drift := zero_lt_one.trans_le one_le_drift

/-- Two numbers that differ by `k` roundings at most. -/
structure Near (k : Nat) (a b : ℚ) : Prop where
  le : a ≤ drift ^ k * b
  ge : b ≤ drift ^ k * a

namespace Near
variable {j k : Nat} {a b c d : ℚ}

theorem refl (a : ℚ) : Near 0 a a := ⟨by simp, by simp⟩

theorem trans (h : Near j a b) (h' : Near k b c) : Near (j + k) a c := by
  have hj : 0 ≤ drift ^ j := pow_nonneg drift_pos.le j
  have hk : 0 ≤ drift ^ k := pow_nonneg drift_pos.le k
  constructor
  · calc
      a ≤ drift ^ j * b := h.le
      _ ≤ drift ^ j * (drift ^ k * c) := mul_le_mul_of_nonneg_left h'.le hj
      _ = drift ^ (j + k) * c := by ring
  · calc
      c ≤ drift ^ k * b := h'.ge
      _ ≤ drift ^ k * (drift ^ j * a) := mul_le_mul_of_nonneg_left h.ge hk
      _ = drift ^ (j + k) * a := by ring

theorem mul (h : Near j a b) (h' : Near k c d) (ha : 0 ≤ a) (hb : 0 ≤ b) (hc : 0 ≤ c)
    (hd : 0 ≤ d) : Near (j + k) (a * c) (b * d) := by
  have hj : 0 ≤ drift ^ j := pow_nonneg drift_pos.le j
  constructor
  · calc
      a * c ≤ drift ^ j * b * (drift ^ k * d) := mul_le_mul h.le h'.le hc (mul_nonneg hj hb)
      _ = drift ^ (j + k) * (b * d) := by ring
  · calc
      b * d ≤ drift ^ j * a * (drift ^ k * c) := mul_le_mul h.ge h'.ge hd (mul_nonneg hj ha)
      _ = drift ^ (j + k) * (a * c) := by ring

theorem inv (h : Near k a b) (ha : 0 < a) (hb : 0 < b) : Near k a⁻¹ b⁻¹ := by
  constructor
  · rw [← div_eq_mul_inv, le_div_iff₀ hb, mul_comm, ← div_eq_mul_inv, div_le_iff₀ ha]
    exact h.ge
  · rw [← div_eq_mul_inv, le_div_iff₀ ha, mul_comm, ← div_eq_mul_inv, div_le_iff₀ hb]
    exact h.le

theorem div (h : Near j a b) (h' : Near k c d) (ha : 0 ≤ a) (hb : 0 ≤ b) (hc : 0 < c)
    (hd : 0 < d) : Near (j + k) (a / c) (b / d) := by
  rw [div_eq_mul_inv, div_eq_mul_inv]
  exact h.mul (h'.inv hc hd) ha hb (inv_nonneg.mpr hc.le) (inv_nonneg.mpr hd.le)

end Near

theorem drift_middle (r : Nat) : drift * middle r < middle (r + 1) := middle_step r

theorem drift_pow_middle (r k : Nat) : drift ^ k * middle r ≤ middle (r + k) := by
  induction k with
  | zero => simp
  | succ k ih =>
    rw [← Nat.add_assoc]
    calc
      drift ^ (k + 1) * middle r = drift * (drift ^ k * middle r) := by ring
      _ ≤ drift * middle (r + k) := mul_le_mul_of_nonneg_left ih drift_pos.le
      _ ≤ middle (r + k + 1) := (drift_middle (r + k)).le

theorem drift_pow_middle_lt (r : Nat) {k : Nat} (hk : 0 < k) :
    drift ^ k * middle r < middle (r + k) := by
  obtain ⟨k, rfl⟩ := Nat.exists_eq_succ_of_ne_zero hk.ne'
  rw [Nat.succ_eq_add_one, ← Nat.add_assoc]
  calc
    drift ^ (k + 1) * middle r = drift * (drift ^ k * middle r) := by ring
    _ ≤ drift * middle (r + k) := mul_le_mul_of_nonneg_left (drift_pow_middle r k) drift_pos.le
    _ < middle (r + k + 1) := drift_middle (r + k)

/-- A number whose nearest rank is `r`, or which is halfway from it to another one. -/
structure Around (r : Nat) (v : ℚ) : Prop where
  le : v ≤ middle r
  ge : ∀ q, r = q + 1 → middle q ≤ v

theorem around_rawRank (n : Nat) {d : Nat} (hd : 0 < d) :
    Around (rawRank n d) (quotient n d) :=
  ⟨quotient_le_middle n hd, fun _ h => middle_le_quotient n hd h⟩

section
variable {n d r : Nat} {v : ℚ}

theorem rawRank_near {k : Nat} (hd : 0 < d) (hk : 0 < k) (hr : Around r v)
    (h : Near k (quotient n d) v) : rawRank n d ≤ r + k ∧ r ≤ rawRank n d + k := by
  have hpow : 0 < drift ^ k := pow_pos drift_pos k
  constructor
  · refine rawRank_le hd ?_
    calc
      quotient n d ≤ drift ^ k * v := h.le
      _ ≤ drift ^ k * middle r := mul_le_mul_of_nonneg_left hr.le hpow.le
      _ < middle (r + k) := drift_pow_middle_lt r hk
  · by_contra hfar
    obtain ⟨q, hq⟩ := Nat.exists_eq_add_of_lt (Nat.not_le.mp hfar)
    have hlow : middle (rawRank n d + q) < quotient n d := by
      refine lt_of_mul_lt_mul_left ?_ hpow.le
      calc
        drift ^ k * middle (rawRank n d + q) < middle (rawRank n d + q + k) :=
          drift_pow_middle_lt _ hk
        _ ≤ v := hr.ge _ (by omega)
        _ ≤ drift ^ k * quotient n d := h.ge
    have hrank := lt_rawRank hd hlow
    omega

theorem quotient_nonneg (n d : Nat) : 0 ≤ quotient n d :=
  div_nonneg (mul_nonneg (Nat.cast_nonneg n) (Nat.cast_nonneg one)) (Nat.cast_nonneg d)

theorem rawRank_near_small {k : Nat} (hd : 0 < d) (hr : Around r v)
    (h : Near k (quotient n d) v) (hk : drift ^ k ≤ 1 + 1 / 2 ^ 50) (hnonneg : 0 ≤ v)
    (hv : v ≤ 2 ^ 49) : rawRank n d ≤ r + 1 ∧ r ≤ rawRank n d + 1 := by
  have hup : quotient n d ≤ (1 + 1 / 2 ^ 50) * v :=
    h.le.trans (mul_le_mul_of_nonneg_right hk hnonneg)
  have hdown : v ≤ (1 + 1 / 2 ^ 50) * quotient n d :=
    h.ge.trans (mul_le_mul_of_nonneg_right hk (quotient_nonneg n d))
  have hstep (q : Nat) : middle q + 1 ≤ middle (q + 1) := by
    have hgap (q : Nat) : (1 : ℚ) ≤ gap q := by exact_mod_cast gap_pos q
    rw [middle_eq_succ, middle_eq (q + 1)]
    linarith [hgap q, hgap (q + 1)]
  constructor
  · refine rawRank_le hd ?_
    linarith [hr.le, hstep r]
  · by_contra hfar
    obtain ⟨q, hq⟩ := Nat.exists_eq_add_of_lt (Nat.not_le.mp hfar)
    have hbelow : middle (rawRank n d + 1) ≤ v :=
      (middle_strictMono.monotone (Nat.le_add_right _ q)).trans (hr.ge _ hq)
    linarith [hstep (rawRank n d), quotient_le_middle n hd]

end

theorem gap_of_lt {r : Nat} (h : r < 2 * binade) : gap r = 1 := by
  have hsplit := gap_split (s := 0) h (.inl rfl)
  simpa using hsplit

section
variable {n d p : Nat} (hp : p ≤ 52)
include hp

theorem unitsAt_two_pow : unitsAt (2 ^ p) = 2 ^ p := by
  have hsmall : 2 ^ p ≤ binade := Nat.pow_le_pow_right (by decide) hp
  have hsplit := unitsAt_split (s := 0) (m := 2 ^ p) (by omega) (.inl rfl)
  simpa using hsplit

theorem gap_le_unitsAt {r : Nat} (h : 2 ^ p ≤ r) : 2 ^ p * gap r ≤ unitsAt r := by
  by_cases hr : binade ≤ r
  · exact (Nat.mul_le_mul_right _ (Nat.pow_le_pow_right (by decide) hp)).trans (le_unitsAt hr)
  · rw [gap_of_lt (by omega), Nat.mul_one, ← unitsAt_two_pow hp]
    exact unitsAt_strictMono.monotone h

theorem drift_pow_ge : 1 + 1 / 2 ^ (p + 1) ≤ drift ^ 2 ^ (52 - p) := by
  have hpow : (2 : ℚ) ^ (52 - p) * 2 ^ (p + 1) = 2 ^ 53 := by
    rw [← pow_add]
    congr 1
    omega
  have hpart : (1 : ℚ) / 2 ^ (p + 1) = (2 ^ (52 - p) : Nat) * (1 / 2 ^ 53) := by
    rw [← hpow]
    push_cast
    field_simp
  rw [hpart, drift]
  exact one_add_mul_le_pow (by norm_num) _

theorem add_half_gap_le {r : Nat} {v : ℚ} (h : 2 ^ p * (gap r : ℚ) ≤ v) (hv : 0 ≤ v) :
    v + gap r / 2 ≤ drift ^ 2 ^ (52 - p) * v := by
  have hhalf : (gap r : ℚ) / 2 = 1 / 2 ^ (p + 1) * (2 ^ p * gap r) := by
    rw [pow_succ]
    field_simp
  calc
    v + gap r / 2 ≤ v + 1 / 2 ^ (p + 1) * v := by
      rw [hhalf]
      gcongr
    _ = (1 + 1 / 2 ^ (p + 1)) * v := by ring
    _ ≤ drift ^ 2 ^ (52 - p) * v := mul_le_mul_of_nonneg_right (drift_pow_ge hp) hv

theorem near_round (hd : 0 < d) (h : 2 ^ p ≤ quotient n d) :
    Near (2 ^ (52 - p)) (unitsAt (rawRank n d)) (quotient n d) := by
  have hpos : 0 ≤ quotient n d := le_trans (by positivity) h
  obtain ⟨q, hq⟩ : ∃ q, 2 ^ p = q + 1 := Nat.exists_eq_succ_of_ne_zero (Nat.two_pow_pos p).ne'
  have hrank : q < rawRank n d := by
    refine lt_rawRank hd ((middle_lt_unitsAt q).trans_le ?_)
    rw [← hq, unitsAt_two_pow hp]
    exact_mod_cast h
  obtain ⟨r, hr⟩ := Nat.exists_eq_add_of_lt hrank
  constructor
  · have hlow := middle_le_quotient n hd hr
    have hgap : 2 ^ p * (gap (q + r) : ℚ) ≤ quotient n d := by
      -- The rank just below the power of two is less than it, but its gap is a single unit.
      rcases Nat.eq_zero_or_pos r with rfl | hpos
      · have hsmall : 2 ^ p ≤ binade := Nat.pow_le_pow_right (by decide) hp
        rw [gap_of_lt (by omega), Nat.cast_one, mul_one]
        exact h
      · have hgap : 2 ^ p * (gap (q + r) : ℚ) ≤ unitsAt (q + r) := by
          exact_mod_cast gap_le_unitsAt hp (by omega)
        linarith [unitsAt_lt_middle (q + r)]
    calc
      (unitsAt (rawRank n d) : ℚ) = middle (q + r) + gap (q + r) / 2 := by
        rw [hr, middle_eq_succ]
        ring
      _ ≤ quotient n d + gap (q + r) / 2 := by gcongr
      _ ≤ drift ^ 2 ^ (52 - p) * quotient n d := add_half_gap_le hp hgap hpos
  · have hgap : 2 ^ p * (gap (rawRank n d) : ℚ) ≤ unitsAt (rawRank n d) := by
      exact_mod_cast gap_le_unitsAt hp (by omega)
    calc
      quotient n d ≤ unitsAt (rawRank n d) + gap (rawRank n d) / 2 := by
        rw [← middle_eq]
        exact quotient_le_middle n hd
      _ ≤ drift ^ 2 ^ (52 - p) * unitsAt (rawRank n d) :=
        add_half_gap_le hp hgap (Nat.cast_nonneg _)

end

end Rulebook.Magnitude
