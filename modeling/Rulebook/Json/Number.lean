import Rulebook.Decimal.Numeral
import Rulebook.Fault

/-! Numbers of JSON texts: how they are scanned, what they stand for, how they are written. -/

namespace Rulebook

inductive JsonNumber where
  | whole (n : Int)
  | real (x : Binary64)
  deriving DecidableEq, Repr

/-- What a scan finds at the start of a text: a thing and the rest of the text, or the fault where
the text breaks off. A reader and one who only skips may see that fault differently. -/
inductive Scan (α : Type) where
  | found (a : α) (rest : List Char)
  | broken (read skipped : JsonFault)

structure NumberText where
  negative : Bool
  whole : List Char
  fraction : List Char
  exponent : Option Int

namespace NumberText
open Numeral

/-- Where digits are missing: at the end of the text a reader asks for more of it. -/
def digitsMissing {α : Type} : List Char → Scan α
  | [] => .broken .ended .malformed
  | _ :: _ => .broken .malformed .malformed

def scanExponent (negative : Bool) (whole fraction : List Char) : List Char → Scan NumberText
  | [] => .found ⟨negative, whole, fraction, none⟩ []
  | c :: r =>
    if c = 'e' ∨ c = 'E' then
      let (minus, r) := sign r
      let (digits, rest) := spanDigits r
      if digits = [] then digitsMissing rest
      else
        let n := Decimal.ofDigitChars digits
        .found ⟨negative, whole, fraction, some (if minus then -(n : Int) else n)⟩ rest
    else .found ⟨negative, whole, fraction, none⟩ (c :: r)

def scanFraction (negative : Bool) (whole : List Char) : List Char → Scan NumberText
  | '.' :: r =>
    let (digits, rest) := spanDigits r
    if digits = [] then digitsMissing rest else scanExponent negative whole digits rest
  | r => scanExponent negative whole [] r

def scanWhole (negative : Bool) (cs : List Char) : Scan NumberText :=
  let (digits, rest) := spanDigits cs
  if digits = [] then digitsMissing rest
  else if digits.head? = some '0' ∧ digits.length ≠ 1 then .broken .malformed .malformed
  else scanFraction negative digits rest

def scan : List Char → Scan NumberText
  | '-' :: r => scanWhole true r
  | r => scanWhole false r

def top : Nat := 0xffffffffffffffff

/-- Takes digits into a number as long as it stays below `top`, and counts those left over. -/
def take (n : Nat) : List Char → Nat × Nat
  | [] => (n, 0)
  | c :: r =>
    let next := Nat.ofDigitChars 10 [c] n
    if next ≤ top then take next r else (n, r.length + 1)

def significand (t : NumberText) : Decimal :=
  let (n, dropped) := take 0 t.whole
  let (m, unused) := take n t.fraction
  ⟨m, (dropped : Int) - (t.fraction.length - unused) + t.exponent.getD 0⟩

def power (n : Nat) : Magnitude := .round (Nat.pow 10 n) 1

/-- Divides by `10 ^ n` in steps of 308 decimal places, each of which rounds. -/
def shrink (x : Magnitude) (n : Nat) : Magnitude :=
  if n ≤ 308 then x.div (power n)
  else if x = .zero then x
  else shrink (x.div (power 308)) (n - 308)
termination_by n

/-- The significand as a binary64, times or over one power of ten. Both steps round, so the result
may miss the nearest number by a little. -/
def size (d : Decimal) : Except JsonFault Magnitude :=
  let x := Magnitude.ofNat d.digits
  if d.exponent < 0 then .ok (shrink x d.exponent.natAbs)
  else if 308 < d.exponent then if x = .zero then .ok x else .error .malformed
  else
    let y := x.mul (power d.exponent.toNat)
    if y.IsFinite then .ok y else .error .malformed

/-- The number that a text stands for. Minus zero and whole numbers beyond 64 bits are real. -/
def read (t : NumberText) : Except JsonFault JsonNumber :=
  let d := t.significand
  if t.fraction = [] ∧ t.exponent = none ∧ d.exponent = 0 then
    if t.negative then
      if d.digits = 0 ∨ 0x8000000000000000 < d.digits then
        .ok (.real (.signed true (.ofNat d.digits)))
      else .ok (.whole (-(d.digits : Int)))
    else .ok (.whole d.digits)
  else (size d).map fun x => .real (.signed t.negative x)

end NumberText

namespace JsonNumber

def toBinary64 : JsonNumber → Binary64
  | .whole n => .ofInt n
  | .real x => x

/-- Shortest digits, of two the even ones. A point is always written, unless the number is below
`0.00001` or not below `10000000000000000`: then an exponent is. -/
def writeMagnitude (x : Magnitude) : List Char :=
  let d := x.shortest .even
  if d.digits = 0 then "0.0".toList
  else if -5 ≤ d.leading ∧ d.leading < 16 then
    if d.exponent < 0 then d.positional else d.positional ++ ".0".toList
  else d.scientific

def write : JsonNumber → List Char
  | .whole n => if n < 0 then '-' :: Decimal.digitChars n.natAbs else Decimal.digitChars n.natAbs
  | .real .nan => "null".toList
  | .real (.signed negative x) =>
    if x.IsFinite then
      if negative then '-' :: writeMagnitude x else writeMagnitude x
    else "null".toList

example : write (.real (.ofInt 35)) = "35.0".toList := by decide +kernel

example : write (.real (.ofDecimal false ⟨1, 21⟩)) = "1e+21".toList := by decide +kernel

example : write (.real (.ofBits 1)) = "5e-324".toList := by decide +kernel

end JsonNumber
end Rulebook
