import Mathlib.Algebra.Order.Field.Rat
import Mathlib.Tactic.FieldSimp
import Mathlib.Tactic.GCongr
import Mathlib.Tactic.Linarith
import Mathlib.Tactic.Ring
import Rulebook.Proofs.Binary64.Rounding

/-! Ranks and the numbers that round to them. Halfway between two ranks stands their middle, and a
number rounds to a rank if it lies between the middles around it. A number that changes by one part
in `2 ^ 53` passes no more than one middle. -/

namespace Rulebook.Magnitude

/-- The value of a rank in units. Beyond infinity the ranks go on as below. -/
def unitsAt (r : Nat) : Nat :=
  if r < binade then r else (binade + r % binade) <<< (r / binade - 1)

theorem unitsAt_rank (x : Magnitude) : unitsAt x.rank = x.units := rfl

def gap (r : Nat) : Nat := 2 ^ (r / binade - 1)

/-- A rank as a place in its binade. The first two binades are one. -/
theorem rank_split (r : Nat) :
    ∃ s m, r = s * binade + m ∧ m < 2 * binade ∧ (s = 0 ∨ binade ≤ m) := by
  have hbinade : 0 < binade := by decide
  have hrest := Nat.mod_lt r hbinade
  have hsplit := Nat.div_add_mod' r binade
  rcases Nat.eq_zero_or_pos (r / binade) with hzero | hpos
  · exact ⟨0, r, by omega, by rw [hzero] at hsplit; omega, .inl rfl⟩
  · refine ⟨r / binade - 1, binade + r % binade, ?_, by omega, .inr (by omega)⟩
    have hstep : (r / binade - 1 + 1) * binade = (r / binade - 1) * binade + binade :=
      Nat.succ_mul _ _
    rw [Nat.sub_add_cancel hpos] at hstep
    omega

section
variable {s m : Nat}

theorem unitsAt_split (hm : m ≤ 2 * binade) (hs : s = 0 ∨ binade ≤ m) :
    unitsAt (s * binade + m) = m * 2 ^ s := by
  have hbinade : 0 < binade := by decide
  unfold unitsAt
  by_cases hlow : m < binade
  · obtain rfl : s = 0 := hs.resolve_right (Nat.not_le.mpr hlow)
    rw [Nat.zero_mul, Nat.zero_add, if_pos hlow, Nat.pow_zero, Nat.mul_one]
  · obtain ⟨r, rfl⟩ := Nat.exists_eq_add_of_le (Nat.not_lt.mp hlow)
    have hnext : s * binade + (binade + r) = r + binade * (s + 1) := by
      rw [Nat.mul_add, Nat.mul_comm binade s]
      omega
    rw [if_neg (by omega), hnext, Nat.add_mul_mod_self_left, Nat.add_mul_div_left _ _ hbinade,
      Nat.shiftLeft_eq]
    rcases Nat.lt_or_eq_of_le (Nat.le_of_add_le_add_left (Nat.two_mul binade ▸ hm)) with hr | rfl
    · rw [Nat.mod_eq_of_lt hr, Nat.div_eq_of_lt hr]
      simp
    · rw [Nat.mod_self, Nat.div_self hbinade, Nat.add_comm 1 (s + 1), Nat.add_sub_cancel,
        Nat.pow_succ, Nat.add_zero, ← Nat.mul_two, Nat.mul_assoc, Nat.mul_comm 2]

theorem gap_split (hm : m < 2 * binade) (hs : s = 0 ∨ binade ≤ m) :
    gap (s * binade + m) = 2 ^ s := by
  have hbinade : 0 < binade := by decide
  rw [gap, Nat.add_comm, Nat.add_mul_div_right _ _ hbinade]
  congr 1
  have hdiv : m / binade < 2 := (Nat.div_lt_iff_lt_mul hbinade).mpr hm
  rcases hs with rfl | hs
  · omega
  · have hone : 1 ≤ m / binade := (Nat.le_div_iff_mul_le hbinade).mpr (by omega)
    omega

end

theorem gap_mono {r r' : Nat} (h : r ≤ r') : gap r ≤ gap r' :=
  Nat.pow_le_pow_right (by decide) (Nat.sub_le_sub_right (Nat.div_le_div_right h) 1)

theorem gap_pos (r : Nat) : 0 < gap r := Nat.two_pow_pos _

theorem unitsAt_succ (r : Nat) : unitsAt (r + 1) = unitsAt r + gap r := by
  obtain ⟨s, m, rfl, hm, hs⟩ := rank_split r
  rw [Nat.add_assoc, unitsAt_split hm (hs.imp_right fun h => by omega),
    unitsAt_split (Nat.le_of_lt hm) hs, gap_split hm hs, Nat.succ_mul]

theorem unitsAt_strictMono : StrictMono unitsAt :=
  strictMono_nat_of_lt_succ fun r => by
    have hpos := gap_pos r
    rw [unitsAt_succ]
    omega

theorem unitsAt_succ_le (r : Nat) : unitsAt (r + 1) ≤ 2 ^ 53 * gap r := by
  obtain ⟨s, m, rfl, hm, hs⟩ := rank_split r
  rw [Nat.add_assoc, unitsAt_split hm (hs.imp_right fun h => by omega), gap_split hm hs]
  exact Nat.mul_le_mul_right _ hm

theorem le_gap {s m : Nat} (hs : s = 0 ∨ binade ≤ m) : 2 ^ s ≤ gap (s * binade + m) := by
  refine Nat.pow_le_pow_right (by decide) ?_
  rcases hs with rfl | hs
  · exact Nat.zero_le _
  · have hdiv : s + 1 ≤ (s * binade + m) / binade := by
      rw [Nat.le_div_iff_mul_le (by decide), Nat.succ_mul]
      omega
    omega

theorem le_unitsAt {r : Nat} (h : binade ≤ r) : 2 ^ 52 * gap r ≤ unitsAt r := by
  obtain ⟨s, m, rfl, hm, hs⟩ := rank_split r
  rw [unitsAt_split (Nat.le_of_lt hm) hs, gap_split hm hs]
  refine Nat.mul_le_mul_right _ ?_
  rcases hs with rfl | hs
  · rw [Nat.zero_mul, Nat.zero_add] at h
    exact h
  · exact hs

/-- Halfway from a rank to the next one, in units. -/
def middle (r : Nat) : ℚ := (unitsAt r + unitsAt (r + 1)) / 2

theorem middle_eq (r : Nat) : middle r = unitsAt r + gap r / 2 := by
  rw [middle, unitsAt_succ]
  push_cast
  ring

theorem middle_eq_succ (r : Nat) : middle r = unitsAt (r + 1) - gap r / 2 := by
  rw [middle, unitsAt_succ]
  push_cast
  ring

theorem middle_lt_unitsAt (r : Nat) : middle r < unitsAt (r + 1) := by
  have hpos : (0 : ℚ) < gap r := by exact_mod_cast gap_pos r
  rw [middle_eq_succ]
  linarith

theorem unitsAt_lt_middle (r : Nat) : unitsAt r < middle r := by
  have hpos : (0 : ℚ) < gap r := by exact_mod_cast gap_pos r
  rw [middle_eq]
  linarith

theorem middle_strictMono : StrictMono middle :=
  strictMono_nat_of_lt_succ fun r => (middle_lt_unitsAt r).trans (unitsAt_lt_middle (r + 1))

/-- A number that grows by one part in `2 ^ 53` does not get past the next middle. -/
theorem middle_step (r : Nat) : (1 + 1 / 2 ^ 53) * middle r < middle (r + 1) := by
  have hsteps : (unitsAt (r + 1) : ℚ) ≤ 2 ^ 53 * gap r := by exact_mod_cast unitsAt_succ_le r
  have hbelow := middle_lt_unitsAt r
  have hgap : (gap r : ℚ) ≤ gap (r + 1) := by exact_mod_cast gap_mono (Nat.le_succ r)
  have hnext : middle (r + 1) = middle r + (gap r + gap (r + 1)) / 2 := by
    rw [middle_eq_succ r, middle_eq (r + 1)]
    ring
  rw [hnext]
  linarith

theorem isFinite_round_iff (n d : Nat) : (round n d).IsFinite ↔ rawRank n d < infinity.rank := by
  simp only [round_eq, IsFinite, ofRank]
  omega

theorem rank_round {n d : Nat} (hfinite : (round n d).IsFinite) :
    (round n d).rank = rawRank n d :=
  Nat.min_eq_left ((isFinite_round_iff n d).mp hfinite).le

theorem rawRank_split (n d : Nat) :
    ∃ s m, rawRank n d = s * binade + m ∧ m = nearestEven (n * one) (d * 2 ^ s) ∧
      m ≤ 2 * binade ∧ (s = 0 ∨ binade ≤ m ∧ binade * (d * 2 ^ s) ≤ n * one) := by
  have hcut := cut_lt (n * one / d)
  have hfull := binade_le_cut (x := n * one / d)
  refine ⟨(n * one / d).log2 - 52, _, rfl, ?_⟩
  generalize hs : (n * one / d).log2 - 52 = s at *
  rw [Nat.div_div_eq_div_mul] at hcut hfull
  rw [Nat.shiftLeft_eq]
  have hbounds := nearestEven_bounds (n * one) (d * 2 ^ s)
  refine ⟨rfl, by omega, ?_⟩
  by_cases hzero : s = 0
  · exact .inl hzero
  · have hbinade := hfull (by omega)
    exact .inr ⟨by omega, (Nat.mul_le_mul_right _ hbinade).trans (Nat.div_mul_le_self _ _)⟩

def quotient (n d : Nat) : ℚ := n * one / d

theorem nearestEven_half (n : Nat) {d : Nat} (hd : 0 < d) :
    (nearestEven n d : ℚ) - 1 / 2 ≤ n / d ∧ (n : ℚ) / d ≤ nearestEven n d + 1 / 2 := by
  have hpos : (0 : ℚ) < d := by exact_mod_cast hd
  have hsplit : (n : ℚ) = d * (n / d : Nat) + (n % d : Nat) := by
    exact_mod_cast (Nat.div_add_mod n d).symm
  rw [le_div_iff₀ hpos, div_le_iff₀ hpos]
  rcases (nearestEven_cases n d).1 with ⟨hvalue, hhalf⟩ | ⟨hvalue, hhalf⟩
  · have hhalf : (2 : ℚ) * (n % d : Nat) ≤ d := by exact_mod_cast hhalf
    have hrest : (0 : ℚ) ≤ (n % d : Nat) := Nat.cast_nonneg _
    rw [hvalue]
    constructor <;> linarith
  · have hhalf : (d : ℚ) ≤ 2 * (n % d : Nat) := by exact_mod_cast hhalf
    have hrest : ((n % d : Nat) : ℚ) ≤ d := by exact_mod_cast (Nat.mod_lt n hd).le
    rw [hvalue]
    push_cast
    constructor <;> linarith

theorem quotient_eq (n d s : Nat) :
    quotient n d = 2 ^ s * (((n * one : Nat) : ℚ) / ((d * 2 ^ s : Nat) : ℚ)) := by
  have hpow : (2 : ℚ) ^ s ≠ 0 := by positivity
  rw [quotient]
  push_cast
  rw [mul_comm (d : ℚ), ← mul_div_assoc, mul_div_mul_left _ _ hpow]

/- A number lies between the middles around the rank that it rounds to. -/

theorem quotient_le_middle (n : Nat) {d : Nat} (hd : 0 < d) :
    quotient n d ≤ middle (rawRank n d) := by
  obtain ⟨s, m, hrank, hm, hle, hs⟩ := rawRank_split n d
  have hpow : (0 : ℚ) < 2 ^ s := by positivity
  have hhalf := (nearestEven_half (n * one) (Nat.mul_pos hd (Nat.two_pow_pos s))).2
  have hgap : (2 : ℚ) ^ s ≤ gap (s * binade + m) := by
    exact_mod_cast le_gap (hs.imp_right And.left)
  have hunits : (unitsAt (s * binade + m) : ℚ) = m * 2 ^ s := by
    exact_mod_cast unitsAt_split hle (hs.imp_right And.left)
  rw [← hm] at hhalf
  rw [quotient_eq n d s, hrank, middle_eq, hunits]
  calc
    _ ≤ 2 ^ s * ((m : ℚ) + 1 / 2) := mul_le_mul_of_nonneg_left hhalf hpow.le
    _ ≤ m * 2 ^ s + gap (s * binade + m) / 2 := by linarith

theorem middle_le_quotient (n : Nat) {d r : Nat} (hd : 0 < d) (h : rawRank n d = r + 1) :
    middle r ≤ quotient n d := by
  obtain ⟨s, m, hrank, hm, hle, hs⟩ := rawRank_split n d
  have hpow : (0 : ℚ) < 2 ^ s := by positivity
  have hunits : (unitsAt (r + 1) : ℚ) = m * 2 ^ s := by
    rw [← h, hrank]
    exact_mod_cast unitsAt_split hle (hs.imp_right And.left)
  have hgap : (0 : ℚ) < gap r := by exact_mod_cast gap_pos r
  rw [middle_eq_succ, hunits]
  by_cases hfirst : s ≠ 0 ∧ m = binade
  · -- The steps below are smaller, but the number does not lie below.
    have hbinade := (hs.resolve_left hfirst.1).2
    have hd : (0 : ℚ) < d := by exact_mod_cast hd
    have hquotient : (m : ℚ) * 2 ^ s ≤ quotient n d := by
      rw [quotient, le_div_iff₀ hd, hfirst.2]
      have hbinade : (binade : ℚ) * (d * 2 ^ s) ≤ n * one := by exact_mod_cast hbinade
      linarith
    linarith
  · have hstep : (2 : ℚ) ^ s ≤ gap r := by
      have hfull := hs.imp_right And.left
      have hpos : 0 < m := by
        rcases hfull with rfl | hfull
        · rw [Nat.zero_mul] at hrank
          omega
        · exact Nat.lt_of_lt_of_le (by decide) hfull
      have hr : s * binade + (m - 1) ≤ r := by omega
      have hlow : s = 0 ∨ binade ≤ m - 1 := by omega
      exact_mod_cast (le_gap hlow).trans (gap_mono hr)
    have hhalf := (nearestEven_half (n * one) (Nat.mul_pos hd (Nat.two_pow_pos s))).1
    rw [← hm] at hhalf
    rw [quotient_eq n d s]
    calc
      (m : ℚ) * 2 ^ s - gap r / 2 ≤ 2 ^ s * ((m : ℚ) - 1 / 2) := by linarith
      _ ≤ _ := mul_le_mul_of_nonneg_left hhalf hpow.le

theorem rawRank_le {n d r : Nat} (hd : 0 < d) (h : quotient n d < middle r) : rawRank n d ≤ r := by
  by_contra hlt
  obtain ⟨k, hk⟩ := Nat.exists_eq_add_of_lt (Nat.not_le.mp hlt)
  have hmiddle := middle_le_quotient n hd hk
  have hmono : middle r ≤ middle (r + k) := middle_strictMono.monotone (Nat.le_add_right r k)
  linarith

theorem lt_rawRank {n d r : Nat} (hd : 0 < d) (h : middle r < quotient n d) : r < rawRank n d := by
  by_contra hle
  have hmono := middle_strictMono.monotone (Nat.not_lt.mp hle)
  have hmiddle := quotient_le_middle n hd
  linarith

theorem rawRank_eq {n d r : Nat} (hd : 0 < d) (hlow : middle r < quotient n d)
    (hhigh : quotient n d < middle (r + 1)) : rawRank n d = r + 1 :=
  Nat.le_antisymm (rawRank_le hd hhigh) (lt_rawRank hd hlow)

end Rulebook.Magnitude
