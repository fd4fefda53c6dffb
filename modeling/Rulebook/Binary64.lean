import Rulebook.Binary64.Magnitude

/-! Binary64 numbers: a sign and a magnitude, or the one NaN. -/

namespace Rulebook

inductive Binary64 where
  | nan
  | signed (negative : Bool) (size : Magnitude)
  deriving DecidableEq, Repr

namespace Binary64

def zero : Binary64 := .signed false .zero

def signBit : Nat := 0x8000000000000000

/-- All patterns above infinity are NaN. -/
def ofBits (bits : Nat) : Binary64 :=
  let rank := bits % signBit
  if h : rank ≤ 0x7ff0000000000000 then .signed (decide (signBit ≤ bits)) ⟨rank, h⟩ else .nan

def bits? : Binary64 → Option Nat
  | .nan => none
  | .signed negative size => some ((if negative then signBit else 0) + size.rank)

theorem bits?_ofBits (negative : Bool) (size : Magnitude) :
    (bits? (.signed negative size)).map ofBits = some (.signed negative size) := by
  obtain ⟨r, h⟩ := size
  have hmod : ∀ k, k = 0 ∨ k = signBit → (k + r) % signBit = r := by
    unfold signBit
    omega
  cases negative
  · have low : ¬ signBit ≤ 0 + r := by
      unfold signBit
      omega
    simp only [bits?, ofBits, Option.map_some, hmod 0 (.inl rfl), h, low, dite_true,
      decide_false, Bool.false_eq_true, if_false]
  · have high : signBit ≤ signBit + r := Nat.le_add_right _ _
    simp only [bits?, ofBits, Option.map_some, hmod signBit (.inr rfl), h, high, dite_true,
      decide_true, if_true]

def IsFinite : Binary64 → Prop
  | .nan => False
  | .signed _ size => size.IsFinite

instance (x : Binary64) : Decidable x.IsFinite :=
  match x with
  | .nan => inferInstanceAs (Decidable False)
  | .signed _ size => inferInstanceAs (Decidable size.IsFinite)

/-- The place of a number in the order of numbers. Both zeros have the place zero. -/
def place (negative : Bool) (size : Magnitude) : Int :=
  if negative then -(size.rank : Int) else size.rank

def compare? : Binary64 → Binary64 → Option Ordering
  | .signed s x, .signed t y => some (compare (place s x) (place t y))
  | _, _ => none

/-- Equal as numbers: the zeros are equal and NaN equals nothing. -/
def equal (x y : Binary64) : Bool := compare? x y = some .eq

def isZero (x : Binary64) : Bool := equal x zero

def ofInt (n : Int) : Binary64 := .signed (decide (n < 0)) (.ofNat n.natAbs)

def ofDecimal (negative : Bool) (d : Decimal) : Binary64 := .signed negative (.ofDecimal d)

/-- The nearest whole number, halves away from zero, kept between zero and `top`. -/
def toNatWithin (top : Nat) : Binary64 → Nat
  | .nan => 0
  | .signed true _ => 0
  | .signed false size =>
    if size.IsFinite then min top ((2 * size.units + Magnitude.one) / (2 * Magnitude.one)) else top

/-- Digits without an exponent, as many as are needed to read the number back. -/
def display : Binary64 → List Char
  | .nan => "NaN".toList
  | .signed negative size =>
    let text := if size.IsFinite then (size.shortest .up).positional else "inf".toList
    if negative then '-' :: text else text

example : (ofBits 0x3fb999999999999a).display = "0.1".toList := by decide +kernel

example : (ofDecimal true ⟨0, 0⟩).display = "-0".toList := by decide +kernel

example : (ofDecimal false ⟨1, 21⟩).display = "1000000000000000000000".toList := by decide +kernel

end Binary64
end Rulebook
