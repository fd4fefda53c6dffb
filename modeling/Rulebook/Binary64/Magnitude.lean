import Rulebook.Decimal

/-! Magnitudes of binary64: their order, their exact values, and rounding to the nearest. -/

namespace Rulebook

/-- A magnitude, given by the number of magnitudes below it. The last one is infinity. -/
structure Magnitude where
  rank : Nat
  le_infinity : rank ≤ 0x7ff0000000000000
  deriving DecidableEq, Repr

namespace Magnitude

def zero : Magnitude := ⟨0, by decide⟩

def infinity : Magnitude := ⟨0x7ff0000000000000, by decide⟩

def IsFinite (x : Magnitude) : Prop := x.rank < infinity.rank

instance (x : Magnitude) : Decidable x.IsFinite :=
  inferInstanceAs (Decidable (_ < _))

def ofRank (r : Nat) : Magnitude := ⟨min r infinity.rank, Nat.min_le_right _ _⟩

/-- How many magnitudes there are between a power of two and the next one. -/
def binade : Nat := 0x10000000000000

/-- The value of a finite magnitude as a multiple of the least one, which is `2 ^ -1074`. -/
def units (x : Magnitude) : Nat :=
  if x.rank < binade then x.rank
  else (binade + x.rank % binade) <<< (x.rank / binade - 1)

def one : Nat := 1 <<< 1074

def nearestEven (n d : Nat) : Nat :=
  let q := n / d
  let twice := 2 * (n % d)
  if twice < d then q
  else if d < twice then q + 1
  else q + q % 2

/-- The nearest magnitude to `n / d`, the one of even rank of two.
The quotient in units is cut to 53 binary digits; a carry into the next binade gives that
binade's first rank by itself. -/
def round (n d : Nat) : Magnitude :=
  let scaled := n * one
  let shift := (scaled / d).log2 - 52
  ofRank (shift * binade + nearestEven scaled (d <<< shift))

def ofNat (n : Nat) : Magnitude := round n 1

def mul (x y : Magnitude) : Magnitude := round (x.units * y.units) (one * one)

def div (x y : Magnitude) : Magnitude := round x.units y.units

/-- The nearest magnitude to a decimal. Exponents whose numbers are out of reach of every digit
are settled before a power of ten is formed. -/
def ofDecimal (d : Decimal) : Magnitude :=
  if d.digits = 0 then zero
  else if 400 < d.exponent then infinity
  else if d.exponent < -(400 + d.digits.log2 : Int) then zero
  else round d.numerator d.denominator

/-- The exact decimal value of a finite magnitude: a unit is `5 ^ 1074` times `10 ^ -1074`. -/
def exact (x : Magnitude) : Decimal := Decimal.trim ⟨x.units * Nat.pow 5 1074, -1074⟩

/-- Which of two equally near decimals of the least length is written. -/
inductive Tie where
  | up
  | even
  deriving DecidableEq, Repr

/- The value of a magnitude to 400 decimal places, and its first `n` digits. -/

def places (x : Magnitude) : Nat := x.units * Nat.pow 10 400 / one

def leadingDigits (x : Magnitude) (n : Nat) : Decimal :=
  let length := (Decimal.digitChars x.places).length
  if n ≤ length then ⟨x.places / Nat.pow 10 (length - n), (length : Int) - n - 400⟩
  else ⟨x.places * Nat.pow 10 (n - length), (length : Int) - n - 400⟩

def nearerSuccessor (tie : Tie) (x : Magnitude) (d : Decimal) : Bool :=
  let middle : Decimal := ⟨2 * d.digits + 1, d.exponent⟩
  let value := 2 * x.units * middle.denominator
  let half := middle.numerator * one
  if value < half then false
  else if half < value then true
  else match tie with
    | .up => true
    | .even => d.digits % 2 = 1

/-- The nearest decimal of `n` digits that reads back, if there is one. -/
def shortestAt? (tie : Tie) (x : Magnitude) (n : Nat) : Option Decimal :=
  let low := x.leadingDigits n
  let high : Decimal := ⟨low.digits + 1, low.exponent⟩
  match decide (ofDecimal low = x), decide (ofDecimal high = x) with
  | true, true => some (if nearerSuccessor tie x low then high else low)
  | true, false => some low
  | false, true => some high
  | false, false => none

def search (tie : Tie) (x : Magnitude) : Nat → Nat → Option Decimal
  | 0, _ => none
  | n + 1, k => (shortestAt? tie x k).orElse fun _ => search tie x n (k + 1)

/-- The decimal with the fewest digits that reads back as `x`, the nearest of them.
Seventeen digits always suffice; the exact value stands behind them. -/
def shortest (tie : Tie) (x : Magnitude) : Decimal :=
  if x.rank = 0 then ⟨0, 0⟩
  else
    match search tie x 17 1 with
    | some d => d.trim
    | none => x.exact

end Magnitude
end Rulebook
