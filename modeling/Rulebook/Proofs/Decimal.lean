import Mathlib.Data.List.Basic
import Rulebook.Decimal.Numeral
import Rulebook.Text.Blank

/-! The digits of a number, and what is found of them at the start of a text. -/

namespace Rulebook.Decimal
open Numeral Text

theorem isDigit_iff (c : Char) : isDigit c ↔ c.isDigit := by
  simp [isDigit, Char.isDigit, Char.le_def]

theorem isBlank_of_isDigit {c : Char} (h : isDigit c) : isBlank c = false := by
  have hn : 48 ≤ c.toNat ∧ c.toNat ≤ 57 := by
    simpa [isDigit, Char.le_def, UInt32.le_iff_toNat_le] using h
  simp only [isBlank, Bool.or_eq_false_iff, Bool.and_eq_false_imp, decide_eq_true_eq,
    decide_eq_false_iff_not, beq_eq_false_iff_ne, ne_eq]
  omega

theorem isDigit_of_mem_digitChars {n : Nat} {c : Char} (h : c ∈ digitChars n) : isDigit c :=
  (isDigit_iff c).mpr (Nat.isDigit_of_mem_toDigits (by decide) (by decide) h)

theorem digitChars_ne_nil (n : Nat) : digitChars n ≠ [] := by
  rw [digitChars, Nat.toDigits_eq_if (by decide)]
  split <;> simp

theorem ofDigitChars_zeros (k : Nat) (cs : List Char) :
    ofDigitChars (List.replicate k '0' ++ cs) = ofDigitChars cs := by
  induction k with
  | zero => rfl
  | succ k ih =>
    rw [List.replicate_succ, List.cons_append, ← ih]
    simp [ofDigitChars, Nat.ofDigitChars]

theorem takeWhile_append_stop {p : Char → Bool} (ds rest : List Char) (hd : ∀ c ∈ ds, p c)
    (hr : ∀ c ∈ rest.head?, ¬ p c) : (ds ++ rest).takeWhile p = ds := by
  rw [List.takeWhile_append_of_pos hd]
  cases rest with
  | nil => simp
  | cons c r => simp [hr c rfl]

theorem dropWhile_append_stop {p : Char → Bool} (ds rest : List Char) (hd : ∀ c ∈ ds, p c)
    (hr : ∀ c ∈ rest.head?, ¬ p c) : (ds ++ rest).dropWhile p = rest := by
  rw [List.dropWhile_append_of_pos hd]
  cases rest with
  | nil => rfl
  | cons c r => exact List.dropWhile_cons_of_neg (hr c rfl)

end Rulebook.Decimal
