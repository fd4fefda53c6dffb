import Rulebook.Literal
import Rulebook.Proofs.Binary64.Nearest
import Rulebook.Proofs.Decimal

/-! Which operands are literals. Quoted texts are, digits are unless their number is out of range,
and nothing is that starts with another character than a numeral can start with. -/

namespace Rulebook

namespace Numeral
open Decimal

theorem sign_of_head {c : Char} (r : List Char) (hplus : c ≠ '+') (hminus : c ≠ '-') :
    sign (c :: r) = (false, c :: r) := by
  unfold sign
  split
  · next h => exact absurd (List.cons.inj h).1 hminus
  · next h => exact absurd (List.cons.inj h).1 hplus
  · rfl

theorem spanDigits_append (ds rest : List Char) (hd : ∀ c ∈ ds, isDigit c)
    (hr : ∀ c ∈ rest.head?, ¬ isDigit c) : spanDigits (ds ++ rest) = (ds, rest) := by
  rw [spanDigits, takeWhile_append_stop ds rest hd hr, dropWhile_append_stop ds rest hd hr]

theorem ne_of_isDigit {c d : Char} (hc : isDigit c) (hd : isDigit d = false) : c ≠ d := by
  rintro rfl
  rw [hc] at hd
  cases hd

theorem read?_eq_none {c : Char} (r : List Char) (hdigit : ¬ isDigit c) (hplus : c ≠ '+')
    (hminus : c ≠ '-') (hpoint : c ≠ '.') : read? (c :: r) = none := by
  have hspan : spanDigits (c :: r) = ([], c :: r) :=
    spanDigits_append [] (c :: r) (by simp) (by simpa using hdigit)
  have hfraction : fraction (c :: r) = ([], c :: r) := by
    unfold fraction
    split
    · next h => exact absurd (List.cons.inj h).1 hpoint
    · rfl
  simp [read?, sign_of_head r hplus hminus, hspan, hfraction]

theorem read?_digits {ds : List Char} (hne : ds ≠ []) (hd : ∀ c ∈ ds, isDigit c) :
    read? ds = some (false, ⟨ofDigitChars ds, 0⟩) := by
  cases ds with
  | nil => exact absurd rfl hne
  | cons c r =>
    have hc := hd c List.mem_cons_self
    have hsign := sign_of_head r (ne_of_isDigit hc (d := '+') rfl) (ne_of_isDigit hc (d := '-') rfl)
    have hspan := spanDigits_append (c :: r) [] hd (by simp)
    rw [List.append_nil] at hspan
    simp [read?, hsign, hspan, fraction, exponent?]

end Numeral

namespace Literal
open Decimal Numeral

theorem quoted?_of_head {c : Char} (r : List Char) (hc : c ≠ '\'') : quoted? (c :: r) = none := by
  simp [quoted?, hc]

theorem read?_eq_none_of_head {s : String} {c : Char} (hs : c ∈ s.toList.head?)
    (hdigit : ¬ isDigit c) (hother : c ∉ ['\'', '+', '-', '.']) : read? s = none := by
  simp only [List.mem_cons, List.not_mem_nil, not_or, or_false] at hother
  obtain ⟨hquote, hplus, hminus, hpoint⟩ := hother
  obtain ⟨r, hr⟩ := List.head?_eq_some_iff.mp hs
  rw [read?, hr, quoted?_of_head r hquote]
  simp [number?, Numeral.read?_eq_none r hdigit hplus hminus hpoint]

theorem read?_quoted {s : String} {inner : List Char} (hs : s.toList = '\'' :: inner ++ ['\'']) :
    read? s = some (.text (String.ofList inner)) := by
  have hquoted : quoted? s.toList = some inner := by
    rw [hs, quoted?, if_pos ⟨rfl, List.getLast?_concat⟩, List.cons_append, List.tail_cons,
      List.dropLast_concat]
  rw [read?, hquoted]

theorem number?_nearest {cs : List Char} {x : Binary64} (h : number? cs = some x) :
    ∃ negative d size, Numeral.read? cs = some (negative, d) ∧ x = .signed negative size ∧
      ∀ y : Magnitude, Nat.dist (d.numerator * Magnitude.one) (size.units * d.denominator) ≤
        Nat.dist (d.numerator * Magnitude.one) (y.units * d.denominator) := by
  rw [number?, Option.bind_eq_some_iff] at h
  obtain ⟨⟨negative, d⟩, hread, hx⟩ := h
  dsimp only at hx
  split at hx
  · next hfinite =>
    cases hx
    exact ⟨negative, d, _, hread, rfl, fun y => (Magnitude.ofDecimal_nearest d hfinite y).1⟩
  · cases hx

theorem read?_digits {s : String} (hne : s.toList ≠ []) (hd : ∀ c ∈ s.toList, isDigit c) :
    read? s = if ofDigitChars s.toList < Magnitude.overflow then
      some (.number (.signed false (.ofNat (ofDigitChars s.toList)))) else none := by
  have hquoted : quoted? s.toList = none := by
    obtain ⟨c, r, hr⟩ := List.exists_cons_of_ne_nil hne
    rw [hr] at hd ⊢
    exact quoted?_of_head r (ne_of_isDigit (hd c List.mem_cons_self) rfl)
  have hfinite : (Binary64.ofDecimal false ⟨ofDigitChars s.toList, 0⟩).IsFinite ↔
      ofDigitChars s.toList < Magnitude.overflow := by
    rw [Binary64.ofDecimal, Magnitude.ofDecimal_whole]
    exact Magnitude.isFinite_ofNat_iff _
  rw [read?, hquoted, number?, Numeral.read?_digits hne hd, Option.bind_some]
  dsimp only
  by_cases hn : ofDigitChars s.toList < Magnitude.overflow
  · rw [if_pos hn, if_pos (hfinite.mpr hn), Binary64.ofDecimal, Magnitude.ofDecimal_whole,
      Option.map_some]
  · rw [if_neg hn, if_neg (mt hfinite.mp hn), Option.map_none]

theorem read?_digits_eq_none_iff {s : String} (hne : s.toList ≠ [])
    (hd : ∀ c ∈ s.toList, isDigit c) :
    read? s = none ↔ Magnitude.overflow ≤ ofDigitChars s.toList := by
  rw [read?_digits hne hd, ← Nat.not_lt]
  split <;> simp [*]

end Literal
end Rulebook
