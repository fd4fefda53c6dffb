/-! Decimals: a whole number of units of a power of ten, and the digits that write them. -/

namespace Rulebook

/-- The number `digits * 10 ^ exponent`. -/
structure Decimal where
  digits : Nat
  exponent : Int
  deriving DecidableEq, Repr

namespace Decimal

def numerator (d : Decimal) : Nat := d.digits * Nat.pow 10 d.exponent.toNat

def denominator (d : Decimal) : Nat := Nat.pow 10 (-d.exponent).toNat

theorem denominator_pos (d : Decimal) : 0 < d.denominator :=
  Nat.pow_pos (by decide)

/- The digit characters of a number, in base ten, and back. -/

def digitChars (n : Nat) : List Char := Nat.toDigits 10 n

def ofDigitChars (cs : List Char) : Nat := Nat.ofDigitChars 10 cs 0

theorem ofDigitChars_digitChars (n : Nat) : ofDigitChars (digitChars n) = n :=
  Nat.ofDigitChars_toDigits (by decide) (by decide)

/-- Moves factors of ten from the digits to the exponent, at most `n` of them. -/
def strip : Nat → Decimal → Decimal
  | 0, d => d
  | n + 1, d =>
    if d.digits % 10 = 0 ∧ d.digits ≠ 0 then strip n ⟨d.digits / 10, d.exponent + 1⟩ else d

def trim (d : Decimal) : Decimal := strip (d.digits.log2 + 1) d

/-- The power of ten of the first digit, when the digits are written `d.ddd`. -/
def leading (d : Decimal) : Int := d.exponent + (digitChars d.digits).length - 1

/-- Digits with zeros and a point where the exponent asks for them, and never an exponent. -/
def positional (d : Decimal) : List Char :=
  let cs := digitChars d.digits
  let shift := (-d.exponent).toNat
  if d.exponent ≥ 0 then cs ++ List.replicate d.exponent.toNat '0'
  else if shift < cs.length then
    cs.take (cs.length - shift) ++ '.' :: cs.drop (cs.length - shift)
  else '0' :: '.' :: (List.replicate (shift - cs.length) '0' ++ cs)

def scientific (d : Decimal) : List Char :=
  let e := d.leading
  let exponent := (if e < 0 then '-' else '+') :: digitChars e.natAbs
  match digitChars d.digits with
  | c :: r => c :: (if r.isEmpty then [] else '.' :: r) ++ 'e' :: exponent
  | [] => 'e' :: exponent

end Decimal
end Rulebook
