/-! Cutting a text at the last occurrence of a separator. -/

namespace Rulebook.RuleText

/-- The parts before and after the last occurrence of `w`, if `w` occurs. -/
def cutLast? (w : List Char) : List Char → Option (List Char × List Char)
  | [] => none
  | c :: r =>
    match cutLast? w r with
    | some (a, b) => some (c :: a, b)
    | none => if w.isPrefixOf (c :: r) then some ([], (c :: r).drop w.length) else none

theorem cutLast?_append {w cs a b : List Char} (h : cutLast? w cs = some (a, b)) :
    cs = a ++ w ++ b := by
  induction cs generalizing a b with
  | nil => simp [cutLast?] at h
  | cons c r ih =>
    simp only [cutLast?] at h
    split at h
    · next a' b' hr =>
      obtain ⟨rfl, rfl⟩ := Prod.mk.inj (Option.some.inj h)
      simp [ih hr]
    · split at h
      · next hw =>
        obtain ⟨rfl, rfl⟩ := Prod.mk.inj (Option.some.inj h)
        obtain ⟨t, ht⟩ := List.isPrefixOf_iff_prefix.mp hw
        simp [← ht]
      · simp at h

theorem cutLast?_length {w cs a b : List Char} (h : cutLast? w cs = some (a, b)) :
    a.length + w.length + b.length = cs.length := by
  simp [cutLast?_append h, Nat.add_assoc]

end Rulebook.RuleText
