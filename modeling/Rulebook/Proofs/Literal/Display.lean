import Rulebook.Proofs.Binary64.Shortest
import Rulebook.Proofs.Decimal.Positional
import Rulebook.Proofs.Literal
import Rulebook.Proofs.Tree.Mismatch

/-! Values as they are displayed. A displayed text is a literal, whatever it holds, since only its
first and its last quote count. A displayed number is a numeral of the same number. -/

namespace Rulebook

namespace Numeral
open Decimal

theorem read?_pointed {before after : List Char} (hne : before ≠ [])
    (hd : ∀ c ∈ before ++ after, isDigit c) :
    read? (before ++ '.' :: after) =
      some (false, ⟨ofDigitChars (before ++ after), -after.length⟩) := by
  obtain ⟨c, r, rfl⟩ := List.exists_cons_of_ne_nil hne
  have hc : isDigit c := hd c (by simp)
  have hsign := sign_of_head (r ++ '.' :: after) (ne_of_isDigit hc (d := '+') rfl)
    (ne_of_isDigit hc (d := '-') rfl)
  have hbefore := spanDigits_append (c :: r) ('.' :: after)
    (fun x hx => hd x (List.mem_append_left after hx)) (by simp [isDigit])
  have hafter := spanDigits_append after [] (fun x hx => hd x (List.mem_append_right _ hx)) (by simp)
  rw [List.append_nil] at hafter
  rw [List.cons_append] at hbefore
  simp [read?, hsign, hbefore, fraction, hafter, exponent?]

theorem read?_positional (d : Decimal) :
    (∃ c r, d.positional = c :: r ∧ isDigit c) ∧
      ∃ d', read? d.positional = some (false, d') ∧ d'.units = d.units := by
  by_cases he : 0 ≤ d.exponent
  · have h := positional_whole he
    obtain ⟨c, r, hcr⟩ := List.exists_cons_of_ne_nil h.ne_nil
    refine ⟨⟨c, r, hcr, h.digits c (by simp [hcr])⟩, _, read?_digits h.ne_nil h.digits, ?_⟩
    rw [units_of_nonneg he, units_of_nonneg (Int.le_refl 0), h.value]
    simp [numerator]
  · obtain ⟨before, after, h⟩ := exists_pointed (Int.not_le.mp he)
    obtain ⟨c, r, hcr⟩ := List.exists_cons_of_ne_nil h.before_ne_nil
    have hread := read?_pointed h.before_ne_nil h.digits
    rw [← h.text, h.value, ← h.exponent] at hread
    exact ⟨⟨c, r ++ '.' :: after, by rw [h.text, hcr, List.cons_append], h.digits c (by simp [hcr])⟩,
      d, hread, rfl⟩

theorem read?_minus {c : Char} {r : List Char} (hc : isDigit c) :
    read? ('-' :: c :: r) = (read? (c :: r)).map fun p => (true, p.2) := by
  have hsign := sign_of_head r (ne_of_isDigit hc (d := '+') rfl) (ne_of_isDigit hc (d := '-') rfl)
  have hminus : sign ('-' :: c :: r) = (true, c :: r) := rfl
  simp only [read?, hsign, hminus]
  split
  · rfl
  · rw [Option.map_map]
    rfl

end Numeral

namespace Binary64
open Numeral

theorem read?_display (negative : Bool) {size : Magnitude} (h : size.IsFinite) :
    (∃ c r, (signed negative size).display = c :: r ∧ c ≠ '\'') ∧
      ∃ d, Numeral.read? (signed negative size).display = some (negative, d) ∧
        Magnitude.ofDecimal d = size := by
  obtain ⟨⟨c, r, hcr, hc⟩, d, hread, hunits⟩ := read?_positional (size.shortest .up)
  have hsize : Magnitude.ofDecimal d = size :=
    (Magnitude.ofDecimal_congr hunits).trans (Magnitude.ofDecimal_shortest .up size)
  rw [display, if_pos h, hcr]
  rw [hcr] at hread
  cases negative with
  | false => exact ⟨⟨c, r, rfl, ne_of_isDigit hc rfl⟩, d, hread, hsize⟩
  | true =>
    refine ⟨⟨'-', c :: r, rfl, by decide⟩, d, ?_, hsize⟩
    rw [if_pos rfl, read?_minus hc, hread, Option.map_some]

end Binary64

namespace Literal

theorem kind_read? {s : String} {v : Value} (h : read? s = some v) : v.kind ≠ .boolean := by
  rw [read?] at h
  split at h
  · cases h
    exact Kind.noConfusion
  · obtain ⟨x, -, rfl⟩ := Option.map_eq_some_iff.mp h
    exact Kind.noConfusion

theorem read?_display_number {x : Binary64} (h : x.IsFinite) :
    read? (Value.number x).display = some (.number x) := by
  cases x with
  | nan => cases h
  | signed negative size =>
    obtain ⟨⟨c, r, hcr, hc⟩, d, hread, hsize⟩ := Binary64.read?_display negative h
    have hquoted : quoted? (Binary64.signed negative size).display = none := by
      rw [hcr]
      exact quoted?_of_head r hc
    have hfinite : (Binary64.signed negative size).IsFinite := h
    rw [Value.display, read?, String.toList_ofList, hquoted, number?, hread, Option.bind_some]
    dsimp only
    rw [Binary64.ofDecimal, hsize, if_pos hfinite, Option.map_some]

theorem read?_display_text (s : String) : read? (Value.text s).display = some (.text s) := by
  have htext : (Value.text s).display.toList = '\'' :: s.toList ++ ['\''] := by
    rw [Value.display, String.toList_append, String.toList_append]
    rfl
  rw [read?_quoted htext, String.ofList_toList]

theorem read?_display_iff (v : Value) :
    read? v.display = some v ↔ v.kind ≠ .boolean ∧ v.IsFinite := by
  refine ⟨fun h => ⟨kind_read? h, isFinite_read? h⟩, fun ⟨hkind, hfinite⟩ => ?_⟩
  cases v with
  | boolean b => exact absurd rfl hkind
  | number x => exact read?_display_number hfinite
  | text s => exact read?_display_text s

end Literal
end Rulebook
