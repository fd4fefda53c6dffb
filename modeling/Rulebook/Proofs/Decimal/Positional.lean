import Mathlib.Algebra.Group.Nat.Defs
import Rulebook.Proofs.Decimal

/-! The digits of a decimal, laid out with zeros and perhaps a point. The zeros change neither the
number of the digits nor, next to the point, its place. -/

namespace Rulebook.Decimal
open Numeral

theorem eq_zero_of_head_digitChars {n : Nat} (h : (digitChars n).head? = some '0') : n = 0 := by
  induction n using Nat.strongRecOn with
  | ind n ih =>
    by_cases hsmall : n < 10
    · have hall : ∀ m < 10, (digitChars m).head? = some '0' → m = 0 := by decide
      exact hall n hsmall h
    · have hsplit : digitChars n = digitChars (n / 10) ++ [(n % 10).digitChar] :=
        Nat.toDigits_of_base_le (by decide) (Nat.not_lt.mp hsmall)
      rw [hsplit, List.head?_append_of_ne_nil _ (digitChars_ne_nil (n / 10))] at h
      have hzero := ih (n / 10) (by omega) h
      omega

theorem ofDigitChars_append_zeros (cs : List Char) (k : Nat) :
    ofDigitChars (cs ++ List.replicate k '0') = ofDigitChars cs * 10 ^ k := by
  rw [ofDigitChars, Nat.ofDigitChars_append, Nat.ofDigitChars_replicate_zero, Nat.mul_comm]
  rfl

theorem isDigit_of_mem_zeros {c : Char} {k : Nat} (h : c ∈ List.replicate k '0') : isDigit c := by
  rw [List.eq_of_mem_replicate h]
  rfl

variable {d : Decimal}

structure Whole (d : Decimal) (cs : List Char) : Prop where
  ne_nil : cs ≠ []
  digits : ∀ c ∈ cs, isDigit c
  value : ofDigitChars cs = d.numerator
  head : 0 < d.digits → cs.head? ≠ some '0'

theorem positional_whole (he : 0 ≤ d.exponent) : d.Whole d.positional := by
  obtain ⟨k, hk⟩ := Int.eq_ofNat_of_zero_le he
  have htext : d.positional = digitChars d.digits ++ List.replicate k '0' := by
    rw [positional, if_pos he, hk, Int.toNat_natCast]
  rw [htext]
  refine ⟨by simp [digitChars_ne_nil], fun c hc => ?_, ?_, fun hpos hzero => ?_⟩
  · rcases List.mem_append.mp hc with hc | hc
    · exact isDigit_of_mem_digitChars hc
    · exact isDigit_of_mem_zeros hc
  · rw [ofDigitChars_append_zeros, ofDigitChars_digitChars, numerator, hk, Int.toNat_natCast]
    rfl
  · rw [List.head?_append_of_ne_nil _ (digitChars_ne_nil _)] at hzero
    exact Nat.ne_of_gt hpos (eq_zero_of_head_digitChars hzero)

structure Pointed (d : Decimal) (before after : List Char) : Prop where
  text : d.positional = before ++ '.' :: after
  before_ne_nil : before ≠ []
  after_ne_nil : after ≠ []
  digits : ∀ c ∈ before ++ after, isDigit c
  value : ofDigitChars (before ++ after) = d.digits
  exponent : d.exponent = -after.length
  head : 0 < d.digits → before.head? = some '0' → before.length = 1

theorem exists_pointed (he : d.exponent < 0) : ∃ before after, d.Pointed before after := by
  obtain ⟨k, hk⟩ : ∃ k : Nat, d.exponent = -k := ⟨d.exponent.natAbs, by omega⟩
  have htext := positional.eq_1 d
  rw [if_neg (Int.not_le.mpr he), hk, Int.neg_neg, Int.toNat_natCast] at htext
  have hvalue := ofDigitChars_digitChars d.digits
  split at htext
  · next hlength =>
    -- The point stands between the digits.
    generalize hn : (digitChars d.digits).length - k = n at htext
    have hjoin := List.take_append_drop n (digitChars d.digits)
    refine ⟨_, _, htext, ?_, ?_, fun c hc => ?_, ?_, ?_, fun hpos hzero => ?_⟩
    · rw [ne_eq, List.take_eq_nil_iff, not_or]
      exact ⟨by omega, digitChars_ne_nil _⟩
    · rw [ne_eq, List.drop_eq_nil_iff]
      omega
    · rw [hjoin] at hc
      exact isDigit_of_mem_digitChars hc
    · rw [hjoin, hvalue]
    · rw [List.length_drop]
      omega
    · rw [List.head?_take, if_neg (by omega)] at hzero
      exact absurd (eq_zero_of_head_digitChars hzero) (Nat.ne_of_gt hpos)
  · next hlength =>
    -- Zeros fill up the places between the point and the digits.
    generalize hn : k - (digitChars d.digits).length = n at htext
    refine ⟨['0'], _, htext, by simp, by simp [digitChars_ne_nil], fun c hc => ?_, ?_, ?_,
      fun _ _ => rfl⟩
    · rw [← List.append_assoc, ← List.replicate_one, List.replicate_append_replicate,
        List.mem_append] at hc
      rcases hc with hc | hc
      · exact isDigit_of_mem_zeros hc
      · exact isDigit_of_mem_digitChars hc
    · rw [← List.append_assoc, ← List.replicate_one, List.replicate_append_replicate,
        ofDigitChars_zeros, hvalue]
    · rw [List.length_append, List.length_replicate]
      omega

end Rulebook.Decimal
