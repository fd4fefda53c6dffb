import Mathlib.Data.List.Infix
import Rulebook.RuleText.Cut

/-! A cut is the last one: the separator occurs neither behind it nor across its end. -/

namespace Rulebook.RuleText
variable {w cs a b : List Char}

theorem cutLast?_eq_none_iff (hw : w ≠ []) : cutLast? w cs = none ↔ ¬ w <:+: cs := by
  induction cs with
  | nil => simp [cutLast?, hw]
  | cons c r ih =>
    rw [List.infix_cons_iff, not_or, ← ih]
    cases hr : cutLast? w r with
    | some p => simp [cutLast?, hr]
    | none =>
      by_cases hp : w <+: c :: r
      · simp [cutLast?, hr, List.isPrefixOf_iff_prefix.mpr hp, hp]
      · have hf : w.isPrefixOf (c :: r) = false := by
          rw [← Bool.not_eq_true, List.isPrefixOf_iff_prefix]
          exact hp
        simp [cutLast?, hr, hf, hp]

/-- Behind a cut, the separator does not occur again, not even across the end of the cut. -/
theorem cutLast?_last (hw : w ≠ []) (h : cutLast? w cs = some (a, b)) :
    ¬ w <:+: w.tail ++ b := by
  induction cs generalizing a with
  | nil => simp [cutLast?] at h
  | cons c r ih =>
    have hcs := cutLast?_append h
    cases hr : cutLast? w r with
    | some p =>
      simp only [cutLast?, hr, Option.some.injEq, Prod.mk.injEq] at h
      obtain ⟨-, rfl⟩ := h
      exact ih hr
    | none =>
      simp only [cutLast?, hr] at h
      split at h
      · simp only [Option.some.injEq, Prod.mk.injEq] at h
        obtain ⟨rfl, -⟩ := h
        have ht : r = w.tail ++ b := by
          cases w with
          | nil => exact absurd rfl hw
          | cons x w => simpa using (List.cons.inj hcs).2
        rw [← ht]
        exact (cutLast?_eq_none_iff hw).mp hr
      · simp at h

theorem cutLast?_eq_some_iff (hw : w ≠ []) :
    cutLast? w cs = some (a, b) ↔ cs = a ++ w ++ b ∧ ¬ w <:+: w.tail ++ b := by
  refine ⟨fun h => ⟨cutLast?_append h, cutLast?_last hw h⟩, ?_⟩
  rintro ⟨rfl, hlast⟩
  induction a with
  | nil =>
    cases w with
    | nil => exact absurd rfl hw
    | cons x w =>
      have hr : cutLast? (x :: w) (w ++ b) = none := (cutLast?_eq_none_iff hw).mpr hlast
      have hp : (x :: w).isPrefixOf (x :: (w ++ b)) = true :=
        List.isPrefixOf_iff_prefix.mpr ⟨b, rfl⟩
      simp [cutLast?, hr, hp]
  | cons c a ih =>
    rw [List.cons_append, List.cons_append, cutLast?, ih]

theorem cutLast?_right (hw : w ≠ []) (h : cutLast? w cs = some (a, b)) :
    cutLast? w b = none := by
  rw [cutLast?_eq_none_iff hw]
  intro hb
  exact cutLast?_last hw h (hb.trans (List.suffix_append _ _).isInfix)

theorem cutLast?_none_of_within {v : List Char} (hw : w ≠ []) (hv : v <:+: cs)
    (h : cutLast? w cs = none) : cutLast? w v = none := by
  rw [cutLast?_eq_none_iff hw] at h ⊢
  exact fun hi => h (hi.trans hv)

theorem cutLast?_within (h : cutLast? w cs = some (a, b)) : a <:+: cs ∧ b <:+: cs := by
  rw [cutLast?_append h]
  exact ⟨⟨[], w ++ b, by simp⟩, ⟨a ++ w, [], by simp⟩⟩

end Rulebook.RuleText
