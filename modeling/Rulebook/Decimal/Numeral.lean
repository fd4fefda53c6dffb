import Rulebook.Decimal

/-! Numerals: `12`, `-0.5`, `.5`, `7.`, `+1e-3`. -/

namespace Rulebook.Numeral

def isDigit (c : Char) : Bool := '0' ≤ c && c ≤ '9'

def spanDigits (cs : List Char) : List Char × List Char :=
  (cs.takeWhile isDigit, cs.dropWhile isDigit)

/-- A sign at the start of a text, true for minus, and what follows it. -/
def sign : List Char → Bool × List Char
  | '-' :: r => (true, r)
  | '+' :: r => (false, r)
  | r => (false, r)

def fraction : List Char → List Char × List Char
  | '.' :: r => spanDigits r
  | r => ([], r)

/-- An exponent that ends the text: no text, or a mark, perhaps a sign, and digits. -/
def exponent? : List Char → Option Int
  | [] => some 0
  | c :: r =>
    if c = 'e' ∨ c = 'E' then
      let (negative, r) := sign r
      if r ≠ [] ∧ r.all isDigit then
        let n := Decimal.ofDigitChars r
        some (if negative then -(n : Int) else n)
      else none
    else none

def read? (cs : List Char) : Option (Bool × Decimal) :=
  let (negative, r) := sign cs
  let (whole, r) := spanDigits r
  let (part, r) := fraction r
  if whole ++ part = [] then none
  else (exponent? r).map fun e =>
    (negative, ⟨Decimal.ofDigitChars (whole ++ part), e - part.length⟩)

def fitsWord (n : Int) : Bool := -0x8000000000000000 ≤ n && n < 0x8000000000000000

end Rulebook.Numeral
