import Mathlib.Data.Nat.Dist
import Rulebook.Proofs.Binary64.Rank

/-! Rounding gives a magnitude that is nearest to the quotient, and of two the one of even rank.
Both are compared in units, with the denominator on the other side. -/

namespace Rulebook.Magnitude

theorem units_eq (x : Magnitude) :
    ∃ m s, x.units = m * 2 ^ s ∧ m < 2 * binade ∧ (s = 0 ∨ binade ≤ m) := by
  obtain ⟨s, m, hrank, hm, hs⟩ := rank_split x.rank
  exact ⟨m, s, by rw [← unitsAt_rank, hrank, unitsAt_split hm.le hs], hm, hs⟩

/-- Of the multiples of `d` none is nearer to `n` than the one that is taken. If another one is as
near, an even one is taken. -/
theorem nearestEven_nearest (n : Nat) {d : Nat} (hd : 0 < d) (k : Nat) :
    Nat.dist n (nearestEven n d * d) ≤ Nat.dist n (k * d) ∧
      (Nat.dist n (nearestEven n d * d) = Nat.dist n (k * d) → k ≠ nearestEven n d →
        nearestEven n d % 2 = 0) := by
  obtain ⟨hcases, htie⟩ := nearestEven_cases n d
  have hsplit := Nat.div_add_mod' n d
  have hrest := Nat.mod_lt n hd
  have hnext : (n / d + 1) * d = n / d * d + d := Nat.succ_mul _ _
  -- The two multiples around `n` are near, and all others are at least one step further.
  have hside : k * d + d ≤ n / d * d ∨ k = n / d ∨ k = n / d + 1 ∨
      n / d * d + d + d ≤ k * d := by
    rcases Nat.lt_trichotomy k (n / d) with hk | hk | hk
    · have hstep := Nat.mul_le_mul_right d hk
      rw [Nat.succ_mul] at hstep
      exact .inl hstep
    · exact .inr (.inl hk)
    · rcases Nat.lt_or_eq_of_le hk with hk | hk
      · have hstep := Nat.mul_le_mul_right d hk
        rw [Nat.succ_mul, Nat.succ_mul] at hstep
        exact .inr (.inr (.inr hstep))
      · exact .inr (.inr (.inl hk.symm))
  unfold Nat.dist
  rcases hcases with ⟨hvalue, hhalf⟩ | ⟨hvalue, hhalf⟩ <;> rw [hvalue] at htie ⊢ <;>
    rcases hside with hk | rfl | rfl | hk <;> omega

theorem units_round (n d : Nat) (hfinite : (round n d).IsFinite) :
    ∃ s, (round n d).units * d = nearestEven (n * one) (d * 2 ^ s) * (d * 2 ^ s) ∧
      (round n d).rank % 2 = nearestEven (n * one) (d * 2 ^ s) % 2 ∧
      (s = 0 ∨ binade * (d * 2 ^ s) ≤ n * one) := by
  obtain ⟨s, m, hrank, hm, hle, hs⟩ := rawRank_split n d
  have heven : binade % 2 = 0 := by decide
  refine ⟨s, ?_, ?_, hs.imp_right And.right⟩
  · rw [← unitsAt_rank, rank_round hfinite, hrank, unitsAt_split hle (hs.imp_right And.left), ← hm,
      Nat.mul_assoc, Nat.mul_comm (2 ^ s)]
  · rw [rank_round hfinite, hrank, ← hm, Nat.add_mod, Nat.mul_mod, heven]
    simp

/-- No magnitude is nearer to `n / d` than the one it is rounded to. If another one is as
near, it is rounded to even rank. -/
theorem round_nearest (n : Nat) {d : Nat} (hd : 0 < d) (hfinite : (round n d).IsFinite)
    (y : Magnitude) :
    Nat.dist (n * one) ((round n d).units * d) ≤ Nat.dist (n * one) (y.units * d) ∧
      (Nat.dist (n * one) ((round n d).units * d) = Nat.dist (n * one) (y.units * d) →
        y.units ≠ (round n d).units → (round n d).rank % 2 = 0) := by
  obtain ⟨s, hunits, hrank, hlow⟩ := units_round n d hfinite
  obtain ⟨m, t, hy, hm, -⟩ := y.units_eq
  have hstep : 0 < d * 2 ^ s := Nat.mul_pos hd (Nat.two_pow_pos s)
  rw [hrank]
  by_cases hts : s ≤ t
  · -- The value of `y` is one of the multiples that were rounded to.
    have hpow : 2 ^ t = 2 ^ (t - s) * 2 ^ s := by rw [← Nat.pow_add, Nat.sub_add_cancel hts]
    have hmultiple : y.units * d = m * 2 ^ (t - s) * (d * 2 ^ s) := by
      rw [hy, hpow]
      ac_rfl
    have hnearest := nearestEven_nearest (n * one) hstep (m * 2 ^ (t - s))
    rw [← hunits, ← hmultiple] at hnearest
    refine ⟨hnearest.1, fun heq hne => hnearest.2 heq fun hk => hne ?_⟩
    exact Nat.eq_of_mul_eq_mul_right hd (by rw [hmultiple, hk, hunits])
  · -- The value of `y` lies below the binade, and the first multiple in it is nearer.
    have hbelow : y.units * d < binade * (d * 2 ^ s) := by
      have hpow : 2 * 2 ^ t ≤ 2 ^ s := by
        rw [← Nat.pow_succ']
        exact Nat.pow_le_pow_right (by decide) (by omega)
      calc
        y.units * d < 2 * binade * 2 ^ t * d := by
          rw [hy]
          exact Nat.mul_lt_mul_of_pos_right (Nat.mul_lt_mul_of_pos_right hm (Nat.two_pow_pos t)) hd
        _ = binade * (d * (2 * 2 ^ t)) := by ac_rfl
        _ ≤ binade * (d * 2 ^ s) := Nat.mul_le_mul_left _ (Nat.mul_le_mul_left _ hpow)
    have hfirst := hlow.resolve_left (by omega)
    have hnearest := (nearestEven_nearest (n * one) hstep binade).1
    rw [← hunits] at hnearest
    unfold Nat.dist at hnearest ⊢
    exact ⟨by omega, fun heq => by omega⟩

theorem ofDecimal_nearest (d : Decimal) (hfinite : (ofDecimal d).IsFinite) (y : Magnitude) :
    Nat.dist (d.numerator * one) ((ofDecimal d).units * d.denominator) ≤
        Nat.dist (d.numerator * one) (y.units * d.denominator) ∧
      (Nat.dist (d.numerator * one) ((ofDecimal d).units * d.denominator) =
          Nat.dist (d.numerator * one) (y.units * d.denominator) →
        y.units ≠ (ofDecimal d).units → (ofDecimal d).rank % 2 = 0) := by
  rw [ofDecimal_eq_round] at hfinite ⊢
  exact round_nearest d.numerator d.denominator_pos hfinite y

theorem nearestEven_mul_self (k : Nat) {d : Nat} (hd : 0 < d) : nearestEven (k * d) d = k := by
  unfold nearestEven
  dsimp only
  rw [Nat.mul_mod_left, if_pos hd, Nat.mul_div_cancel k hd]

theorem units_ofNat {m e : Nat} (hm : m < 2 * binade) (hfinite : (ofNat (m * 2 ^ e)).IsFinite) :
    (ofNat (m * 2 ^ e)).units = m * 2 ^ e * one := by
  obtain ⟨s, hunits, -, hlow⟩ := units_round (m * 2 ^ e) 1 hfinite
  obtain ⟨u, hone⟩ : ∃ u, one = 1 <<< u := ⟨_, rfl⟩
  rw [Nat.one_shiftLeft] at hone
  have hvalue : m * 2 ^ e * one = m * 2 ^ (e + u) := by rw [hone, Nat.mul_assoc, ← Nat.pow_add]
  rw [Nat.mul_one, Nat.one_mul, hvalue] at hunits
  rw [Nat.one_mul, hvalue] at hlow
  rw [ofNat, hvalue, hunits]
  -- The digits fit, so the step is no larger than the last of them.
  have hs : s ≤ e + u := by
    by_contra hlarge
    have hfirst := hlow.resolve_left (by omega)
    have hstep : m * 2 ^ (e + u) < binade * 2 ^ s := by
      calc
        m * 2 ^ (e + u) < 2 * binade * 2 ^ (e + u) :=
          Nat.mul_lt_mul_of_pos_right hm (Nat.two_pow_pos _)
        _ = binade * 2 ^ (e + u + 1) := by rw [Nat.pow_succ]; ac_rfl
        _ ≤ binade * 2 ^ s := Nat.mul_le_mul_left _ (Nat.pow_le_pow_right (by decide) (by omega))
    omega
  have hmultiple : m * 2 ^ (e + u) = m * 2 ^ (e + u - s) * 2 ^ s := by
    rw [Nat.mul_assoc, ← Nat.pow_add, Nat.sub_add_cancel hs]
  rw [hmultiple, nearestEven_mul_self _ (Nat.two_pow_pos s)]

end Rulebook.Magnitude
