import Rulebook.Proofs.Json.Numeral
import Rulebook.Proofs.Outcome

/-! No number of a JSON text is infinite. Digits are taken as long as they fit a word, a product is
refused unless it is finite, and a quotient is no larger than what is divided. -/

namespace Rulebook

namespace Magnitude

theorem units_mono {x y : Magnitude} (h : x.rank ≤ y.rank) : x.units ≤ y.units :=
  unitsAt_strictMono.monotone h

theorem rank_div_le (x : Magnitude) {y : Magnitude} (hy : one ≤ y.units) :
    (x.div y).rank ≤ x.rank := by
  have hy' : (one : ℚ) ≤ y.units := by exact_mod_cast hy
  have hone : (0 : ℚ) < one := Nat.cast_pos.mpr one_pos
  have hquotient : quotient x.units y.units ≤ unitsAt x.rank := by
    rw [quotient, unitsAt_rank, div_le_iff₀ (hone.trans_le hy')]
    exact mul_le_mul_of_nonneg_left hy' (Nat.cast_nonneg _)
  have hraw := rawRank_le (one_pos.trans_le hy) (hquotient.trans_lt (unitsAt_lt_middle x.rank))
  exact (Nat.min_le_left _ _).trans hraw

end Magnitude

namespace NumberText
open Magnitude

theorem one_le_units_ofNat {n : Nat} (hn : 0 < n) : one ≤ (ofNat n).units := by
  have hone : (ofNat 1).units = one := by decide +kernel
  rw [← hone]
  exact units_mono (ofNat_mono hn)

theorem one_le_power (n : Nat) : one ≤ (power n).units :=
  one_le_units_ofNat (Nat.pow_pos (by decide))

theorem rank_shrink_le (x : Magnitude) (n : Nat) : (shrink x n).rank ≤ x.rank := by
  fun_induction shrink x n with
  | case1 x n h => exact rank_div_le x (one_le_power n)
  | case2 n => exact Nat.le_refl _
  | case3 x n h hx ih => exact ih.trans (rank_div_le x (one_le_power 308))

theorem isFinite_size {d : Decimal} {x : Magnitude} (hd : d.digits ≤ top) (h : size d = .ok x) :
    x.IsFinite := by
  have hdigits : (ofNat d.digits).IsFinite :=
    (isFinite_ofNat_iff _).mpr (Nat.lt_of_le_of_lt hd top_lt_overflow)
  unfold size at h
  dsimp only at h
  split_ifs at h with hlow hhigh hzero hfinite <;> cases h
  · exact Nat.lt_of_le_of_lt (rank_shrink_le _ _) hdigits
  · exact hdigits
  · exact hfinite

theorem take_le (cs : List Char) {n : Nat} (hn : n ≤ top) : (take n cs).1 ≤ top := by
  induction cs generalizing n with
  | nil => exact hn
  | cons c r ih =>
    rw [take]
    split
    · next h => exact ih h
    · exact hn

theorem significand_le (t : NumberText) : t.significand.digits ≤ top :=
  take_le _ (take_le _ (Nat.zero_le top))

theorem isFinite_read {t : NumberText} {n : JsonNumber} (h : t.read = .ok n) :
    n.toBinary64.IsFinite := by
  have hdigits : (ofNat t.significand.digits).IsFinite :=
    (isFinite_ofNat_iff _).mpr (Nat.lt_of_le_of_lt t.significand_le top_lt_overflow)
  unfold read at h
  dsimp only at h
  split_ifs at h
  · cases h
    exact hdigits
  · cases h
    have hneg : (-(t.significand.digits : Int)).natAbs = t.significand.digits := by omega
    change (ofNat (-(t.significand.digits : Int)).natAbs).IsFinite
    rwa [hneg]
  · cases h
    exact hdigits
  · obtain ⟨x, hx, rfl⟩ := map_eq_ok.mp h
    exact isFinite_size t.significand_le hx

end NumberText

namespace Document

mutual

def Finite : Document → Prop
  | .number (.ok n) => n.toBinary64.IsFinite
  | .array is => ItemsFinite is
  | .object ms => MembersFinite ms
  | _ => True

def ItemsFinite : Items → Prop
  | .done _ => True
  | .item d r => d.Finite ∧ ItemsFinite r

def MembersFinite : Members → Prop
  | .done _ => True
  | .member _ d r => d.Finite ∧ MembersFinite r

end

end Document

namespace JsonText
open Document

theorem finite_read (t : NumberText) : (Document.number t.read).Finite := by
  generalize h : t.read = r
  cases r with
  | error f => trivial
  | ok n => exact NumberText.isFinite_read h

theorem finite_number (cs : List Char) : (number cs).1.Finite := by
  unfold number
  cases NumberText.scan cs with
  | broken f g => trivial
  | found t rest => exact finite_read t

theorem finite_quoted (cs : List Char) : (quoted cs).1.Finite := by
  unfold quoted
  cases Quoted.scan cs <;> trivial

theorem finite_word {d : Document} (hd : d.Finite) (w rest : List Char) :
    (word rest d w).1.Finite := by
  induction w generalizing rest with
  | nil => rwa [word]
  | cons c w ih =>
    cases rest with
    | nil => trivial
    | cons c' rest =>
      rw [word]
      split
      · exact ih rest
      · trivial

/-- What the readers of values, of items and of members promise with so much fuel: no number that
they find is infinite. They call each other, each time with less fuel. -/
structure FindsFinite (fuel : Nat) : Prop where
  value (cs : List Char) : (value fuel cs).1.Finite
  items (cs : List Char) : ItemsFinite (items fuel cs).1
  members (cs : List Char) : MembersFinite (members fuel cs).1

namespace FindsFinite
variable {fuel : Nat}

theorem value_succ (ih : FindsFinite fuel) (cs : List Char) :
    (JsonText.value (fuel + 1) cs).1.Finite := by
  rw [JsonText.value]
  split
  · trivial
  · exact finite_quoted _
  · split
    · trivial
    · trivial
    · exact ih.items _
  · split
    · trivial
    · exact ih.members _
  · exact finite_word (d := .null) trivial _ _
  · exact finite_word (d := .boolean true) trivial _ _
  · exact finite_word (d := .boolean false) trivial _ _
  · split
    · exact finite_number _
    · trivial

theorem items_succ (ih : FindsFinite fuel) (cs : List Char) :
    ItemsFinite (JsonText.items (fuel + 1) cs).1 := by
  have hd := ih.value cs
  rw [JsonText.items]
  split
  · next h =>
    rw [h] at hd
    exact ⟨hd, trivial⟩
  · next h =>
    rw [h] at hd
    split
    · exact ⟨hd, ih.items _⟩
    · exact ⟨hd, trivial⟩
    · exact ⟨hd, trivial⟩

theorem members_succ (ih : FindsFinite fuel) (cs : List Char) :
    MembersFinite (JsonText.members (fuel + 1) cs).1 := by
  rw [JsonText.members]
  split
  · split
    · exact ⟨trivial, trivial⟩
    · split
      · next r _ =>
        have hd := ih.value r
        split
        · next h =>
          rw [h] at hd
          exact ⟨hd, trivial⟩
        · next h =>
          rw [h] at hd
          split
          · exact ⟨hd, ih.members _⟩
          · exact ⟨hd, trivial⟩
          · exact ⟨hd, trivial⟩
      · exact ⟨trivial, trivial⟩
  · trivial

end FindsFinite

theorem findsFinite (fuel : Nat) : FindsFinite fuel := by
  induction fuel with
  | zero => exact ⟨fun _ => trivial, fun _ => trivial, fun _ => trivial⟩
  | succ fuel ih => exact ⟨ih.value_succ, ih.items_succ, ih.members_succ⟩

theorem finite_ofString (s : String) : (ofString s).root.Finite := by
  have h := (findsFinite (2 * s.toList.length + 2)).value s.toList
  rw [ofString, ofChars]
  split
  · next hv => rwa [hv] at h
  · next hv => rwa [hv] at h

end JsonText
end Rulebook
