import Rulebook.Context.Data
import Rulebook.Proofs.Json.Numeral
import Rulebook.Proofs.RuleText.Fields

/-! The same digits in a rule and in evaluation data. A rule takes the number that is nearest to
them. Data do so up to 64 bits; beyond, they round more than once and may take another number. -/

namespace Rulebook

theorem Binary64.equal_unsigned (x y : Magnitude) :
    Binary64.equal (.signed false x) (.signed false y) = decide (x = y) := by
  obtain ⟨r, hr⟩ := x
  obtain ⟨s, hs⟩ := y
  have hplace : compare (r : Int) s = .eq ↔ r = s := by
    rw [Std.compare_eq_iff_eq]
    omega
  simp [Binary64.equal, Binary64.compare?, Binary64.place, hplace]

namespace Context
open Decimal NumberText RuleText

def numeralText (digits : String) : String := "\x7b\"x\": " ++ digits ++ "\x7d"

def HasNoLeadingZero (digits : String) : Prop :=
  digits.toList.head? = some '0' → digits.toList.length = 1

instance (digits : String) : Decidable (HasNoLeadingZero digits) :=
  inferInstanceAs (Decidable (_ → _))

theorem ofText_numeralText {digits : String} (h : IsNumeral digits)
    (hzero : HasNoLeadingZero digits) :
    ofText (numeralText digits) =
      ((NumberText.ofDigits digits.toList).read.mapError Fault.json).map fun n =>
        Context.empty.insert "x" (.number n.toBinary64) := by
  have htext : (numeralText digits).toList =
      '{' :: (Quoted.write "x" ++ ':' :: ' ' :: (digits.toList ++ ['}'])) := by
    rw [numeralText, String.toList_append, String.toList_append]
    rfl
  have hroot := JsonText.ofString_member h.1 h.2 hzero htext
  rw [ofText, Json.parse, hroot]
  cases (NumberText.ofDigits digits.toList).read with
  | error f => rfl
  | ok n => rfl

theorem parse_numeral {digits : String} (h : IsNumeral digits) :
    parse ("x = " ++ digits) = .ok (.node .eq (.operand "x") (.operand digits)) := by
  have hsuits : Layout.full.Suits (.node .eq (.operand "x") (.operand digits)) := by
    have hx (op : Operator) : op.symbol ∉ ["x"] := by cases op <;> decide
    exact fun _ op _ => hx op
  have htext : ("x = " ++ digits).toList =
      Layout.full.write (.node .eq (.operand "x") (.operand digits)) := by
    rw [Layout.full.write_comparison rfl, String.toList_append]
    rfl
  exact parse_comparison .full (.mk rfl (by decide) (.inl h)) hsuits htext

theorem evaluate_numeral {digits : String} (h : IsNumeral digits)
    (hfinite : ofDigitChars digits.toList < Magnitude.overflow) (x : Binary64) :
    Tree.evaluate (Context.empty.insert "x" (.number x))
        (.node .eq (.operand "x") (.operand digits)) =
      .ok (.boolean (x.equal (.signed false (.ofNat (ofDigitChars digits.toList))))) := by
  have hfield : IsField "x" := by decide
  have hleft := resolve_insert_self hfield.read? .empty (.number x)
  have hright : (Context.empty.insert "x" (.number x)).resolve digits =
      .ok (.number (.signed false (.ofNat (ofDigitChars digits.toList)))) := by
    rw [resolve, Literal.read?_digits h.1 h.2, if_pos hfinite]
  rw [Tree.evaluate, Tree.evaluate, Tree.evaluate, hleft, hright]
  rfl

/- A rule that compares with a numeral, on data that hold the same numeral. -/

section
variable {digits : String} (h : IsNumeral digits) (hzero : HasNoLeadingZero digits)
include h hzero

theorem evaluate_short (hshort : ofDigitChars digits.toList ≤ top) :
    (ofText (numeralText digits) >>= fun c =>
      Tree.evaluate c (.node .eq (.operand "x") (.operand digits))) = .ok (.boolean true) := by
  obtain ⟨k, -, hread, -⟩ := read_ofDigits h.2
  have hint : Binary64.ofInt (ofDigitChars digits.toList) =
      .signed false (.ofNat (ofDigitChars digits.toList)) := rfl
  rw [ofText_numeralText h hzero, hread hshort]
  refine (evaluate_numeral h (Nat.lt_of_le_of_lt hshort top_lt_overflow) _).trans ?_
  rw [JsonNumber.toBinary64, hint, Binary64.equal_unsigned, decide_eq_true rfl]

theorem evaluate_long {k : Nat} (hk : Dropped (ofDigitChars digits.toList) k)
    (hlong : top < ofDigitChars digits.toList)
    (hfinite : ofDigitChars digits.toList < Magnitude.overflow) :
    (ofText (numeralText digits) >>= fun c =>
        Tree.evaluate c (.node .eq (.operand "x") (.operand digits))) =
      if (scaled (ofDigitChars digits.toList) k).IsFinite then
        .ok (.boolean (decide (scaled (ofDigitChars digits.toList) k =
          .ofNat (ofDigitChars digits.toList))))
      else .error (.json .malformed) := by
  obtain ⟨j, hj, -, hread⟩ := read_ofDigits h.2
  obtain rfl := hk.unique hj
  rw [ofText_numeralText h hzero, hread hlong hfinite]
  split
  · refine (evaluate_numeral h hfinite _).trans ?_
    rw [JsonNumber.toBinary64, Binary64.equal_unsigned]
  · rfl

theorem evaluate_exact {m e k : Nat}
    (hnumber : ofDigitChars digits.toList = m * 2 ^ e * Nat.pow 10 k)
    (hm : m < 2 * Magnitude.binade) (hk : k ≤ 22) (hdropped : Dropped (m * 2 ^ e * Nat.pow 10 k) k)
    (hlong : top < m * 2 ^ e * Nat.pow 10 k) :
    (ofText (numeralText digits) >>= fun c =>
      Tree.evaluate c (.node .eq (.operand "x") (.operand digits))) = .ok (.boolean true) := by
  have hfits := hdropped.fits
  have hpos : 0 < Nat.pow 10 k := Nat.pow_pos (by decide)
  rw [Nat.mul_div_cancel _ hpos] at hfits
  have hfinite : m * 2 ^ e * Nat.pow 10 k < Magnitude.overflow := by
    calc
      m * 2 ^ e * Nat.pow 10 k ≤ top * Nat.pow 10 22 :=
        Nat.mul_le_mul hfits (Nat.pow_le_pow_right (by decide) hk)
      _ < Magnitude.overflow := by decide +kernel
  rw [← hnumber] at hdropped hlong hfinite
  rw [evaluate_long h hzero hdropped hlong hfinite, hnumber, scaled_of_exact hm hfits hk, ← hnumber,
    if_pos ((Magnitude.isFinite_ofNat_iff _).mpr hfinite), decide_eq_true rfl]

end

/-- A whole number means the same in a rule and in data if it fits 64 bits. A longer one loses its
last digits in data and is scaled, so the comparison tells whether that gave the same number. If it
gave no finite number, the data are refused. -/
theorem evaluate_same_numeral (digits : String) (h : IsNumeral digits)
    (hzero : HasNoLeadingZero digits) (hnumber : ∃ x, Literal.read? digits = some (.number x)) :
    ∃ t, parse ("x = " ++ digits) = .ok t ∧
      (ofDigitChars digits.toList ≤ top →
        (ofText (numeralText digits) >>= fun c => t.evaluate c) = .ok (.boolean true)) ∧
      (top < ofDigitChars digits.toList → ∃ k, Dropped (ofDigitChars digits.toList) k ∧
        (ofText (numeralText digits) >>= fun c => t.evaluate c) =
          if (scaled (ofDigitChars digits.toList) k).IsFinite then
            .ok (.boolean (decide (scaled (ofDigitChars digits.toList) k =
              .ofNat (ofDigitChars digits.toList))))
          else .error (.json .malformed)) := by
  have hfinite : ofDigitChars digits.toList < Magnitude.overflow := by
    obtain ⟨x, hx⟩ := hnumber
    by_contra hlarge
    rw [Literal.read?_digits h.1 h.2, if_neg hlarge] at hx
    cases hx
  obtain ⟨k, hk, -⟩ := read_ofDigits h.2
  exact ⟨_, parse_numeral h, evaluate_short h hzero,
    fun hlong => ⟨k, hk, evaluate_long h hzero hk hlong hfinite⟩⟩

theorem evaluate_same_numeral_long : IsNumeral "100000000000000000000000" ∧
    HasNoLeadingZero "100000000000000000000000" ∧
    (∃ x, Literal.read? "100000000000000000000000" = some (.number x)) ∧
    ∃ t, parse "x = 100000000000000000000000" = .ok t ∧
      (ofText (numeralText "100000000000000000000000") >>= fun c => t.evaluate c) =
        .ok (.boolean true) := by
  have h : IsNumeral "100000000000000000000000" := by decide
  have hzero : HasNoLeadingZero "100000000000000000000000" := by decide
  have hnumber : ∃ x, Literal.read? "100000000000000000000000" = some (.number x) :=
    ⟨.signed false ⟨0x44b52d02c7e14af6, by decide⟩, by decide +kernel⟩
  obtain ⟨t, ht, -, hlong⟩ := evaluate_same_numeral _ h hzero hnumber
  obtain ⟨k, hk, heval⟩ := hlong (by decide +kernel)
  have hfour : Dropped (ofDigitChars "100000000000000000000000".toList) 4 :=
    ⟨by decide +kernel, by decide +kernel⟩
  obtain rfl := hk.unique hfour
  exact ⟨h, hzero, hnumber, t, ht, heval.trans (by decide +kernel)⟩

/-- This number is little more than `2 ^ 64`. It rounds up in a rule. In data its last digit is
dropped, and then it rounds down. -/
theorem evaluate_differs : IsNumeral "18446744073709553665" ∧
    HasNoLeadingZero "18446744073709553665" ∧
    (∃ x, Literal.read? "18446744073709553665" = some (.number x)) ∧
    ∃ t, parse "x = 18446744073709553665" = .ok t ∧
      (ofText (numeralText "18446744073709553665") >>= fun c => t.evaluate c) =
        .ok (.boolean false) := by
  have hparse : parse "x = 18446744073709553665" =
      .ok (.node .eq (.operand "x") (.operand "18446744073709553665")) := by decide +kernel
  have hread : Literal.read? "18446744073709553665" =
      some (.number (.signed false ⟨0x43f0000000000001, by decide⟩)) := by decide +kernel
  exact ⟨by decide, by decide, ⟨_, hread⟩, _, hparse, by decide +kernel⟩

end Context
end Rulebook
