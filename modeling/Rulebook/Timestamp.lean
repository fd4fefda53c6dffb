import Rulebook.Decimal.Numeral
import Rulebook.Text.Blank

/-! Timestamps in universal time, as dates and times of day of RFC 3339. -/

namespace Rulebook

/-- A day of the Gregorian calendar, which is taken to hold for all years. -/
structure Date where
  year : Int
  month : Nat
  day : Nat
  deriving DecidableEq, Repr

namespace Date

def isLeap (year : Int) : Bool := year % 4 == 0 && (year % 100 != 0 || year % 400 == 0)

def daysIn (year : Int) (month : Nat) : Nat :=
  if month = 2 then if isLeap year then 29 else 28
  else if month = 4 ∨ month = 6 ∨ month = 9 ∨ month = 11 then 30
  else 31

def InRange (year : Int) : Prop := -262143 ≤ year ∧ year ≤ 262142

instance (year : Int) : Decidable (InRange year) := inferInstanceAs (Decidable (_ ∧ _))

def Valid (d : Date) : Prop :=
  InRange d.year ∧ 1 ≤ d.month ∧ d.month ≤ 12 ∧ 1 ≤ d.day ∧ d.day ≤ daysIn d.year d.month

instance (d : Date) : Decidable d.Valid := inferInstanceAs (Decidable (_ ∧ _))

def next (d : Date) : Date :=
  if d.day < daysIn d.year d.month then ⟨d.year, d.month, d.day + 1⟩
  else if d.month < 12 then ⟨d.year, d.month + 1, 1⟩
  else ⟨d.year + 1, 1, 1⟩

def previous (d : Date) : Date :=
  if 1 < d.day then ⟨d.year, d.month, d.day - 1⟩
  else if 1 < d.month then ⟨d.year, d.month - 1, daysIn d.year (d.month - 1)⟩
  else ⟨d.year - 1, 12, 31⟩

def ofUnixDay (days : Nat) : Date := days.repeat next ⟨1970, 1, 1⟩

end Date

/-- A point in time. Second 60 is the leap second of its minute. -/
structure Timestamp where
  date : Date
  hour : Nat
  minute : Nat
  second : Nat
  nanosecond : Nat
  deriving DecidableEq, Repr

namespace Timestamp
open Text Numeral

def Valid (t : Timestamp) : Prop :=
  t.date.Valid ∧ t.hour < 24 ∧ t.minute < 60 ∧ t.second ≤ 60 ∧ t.nanosecond < 1000000000

instance (t : Timestamp) : Decidable t.Valid := inferInstanceAs (Decidable (_ ∧ _))

def ofUnix (seconds nanosecond : Nat) : Timestamp :=
  ⟨.ofUnixDay (seconds / 86400), seconds / 3600 % 24, seconds / 60 % 60, seconds % 60, nanosecond⟩

def padded (width n : Nat) : List Char :=
  let cs := Decimal.digitChars n
  List.replicate (width - cs.length) '0' ++ cs

def yearText (year : Int) : List Char :=
  if 0 ≤ year ∧ year ≤ 9999 then padded 4 year.toNat
  else (if year < 0 then '-' else '+') :: padded 4 year.natAbs

def fractionText (nanosecond : Nat) : List Char :=
  if nanosecond = 0 then []
  else if nanosecond % 1000000 = 0 then '.' :: padded 3 (nanosecond / 1000000)
  else if nanosecond % 1000 = 0 then '.' :: padded 6 (nanosecond / 1000)
  else '.' :: padded 9 nanosecond

def write (t : Timestamp) : List Char :=
  yearText t.date.year ++ '-' :: padded 2 t.date.month ++ '-' :: padded 2 t.date.day ++
    'T' :: padded 2 t.hour ++ ':' :: padded 2 t.minute ++ ':' :: padded 2 t.second ++
    fractionText t.nanosecond ++ ['Z']

def render (t : Timestamp) : String := String.ofList t.write

def number? (width : Nat) (cs : List Char) : Option (Nat × List Char) :=
  let digits := (cs.take width).takeWhile isDigit
  if digits = [] then none else some (Decimal.ofDigitChars digits, cs.drop digits.length)

def skipBlanks (cs : List Char) : List Char := cs.dropWhile isBlank

/-- A signed year has any number of digits, another one at most four. -/
def year? (cs : List Char) : Option (Int × List Char) :=
  match cs with
  | '-' :: r => (number? r.length r).map fun (n, r) => (-(n : Int), r)
  | '+' :: r => (number? r.length r).map fun (n, r) => ((n : Int), r)
  | r => (number? 4 r).map fun (n, r) => ((n : Int), r)

def marked? (mark : Char) (cs : List Char) : Option (Nat × List Char) :=
  match skipBlanks cs with
  | c :: r => if c = mark then number? 2 (skipBlanks r) else none
  | [] => none

def fraction? (cs : List Char) : Option (Nat × List Char) :=
  match cs with
  | '.' :: r =>
    let digits := r.takeWhile isDigit
    let nine := digits.take 9
    if digits = [] then none
    else some (Decimal.ofDigitChars nine * Nat.pow 10 (9 - nine.length), r.drop digits.length)
  | r => some (0, r)

def isUtc (cs : List Char) : Bool :=
  (cs.take 3).map Char.toUpper == "UTC".toList

/-- An offset from universal time in minutes, positive to the east. Colons and blanks may stand
between hours and minutes. -/
def offset? (cs : List Char) : Option (Int × List Char) :=
  if isUtc cs then some (0, cs.drop 3)
  else
    match cs with
    | [] => none
    | c :: r =>
      if c = 'Z' ∨ c = 'z' then some (0, r)
      else if c = '+' ∨ c = '-' ∨ c = '\u2212' then
        match r with
        | a :: b :: r =>
          match r.dropWhile fun c => c == ':' || isBlank c with
          | x :: y :: r =>
            if isDigit a ∧ isDigit b ∧ isDigit x ∧ isDigit y ∧ x < '6' then
              let n := 60 * Decimal.ofDigitChars [a, b] + Decimal.ofDigitChars [x, y]
              some (if c = '+' then n else -(n : Int), r)
            else none
          | _ => none
        | _ => none
      else none

def toUniversal (t : Timestamp) (offset : Int) : Timestamp :=
  let minutes := (60 * t.hour + t.minute : Int) - offset
  let date :=
    if minutes < 0 then t.date.previous else if 1440 ≤ minutes then t.date.next else t.date
  let minutes := (minutes % 1440).toNat
  ⟨date, minutes / 60, minutes % 60, t.second, t.nanosecond⟩

/-- Reads a date and a time with its offset. A blank may stand for the letter between them, and
blanks may stand between the parts. -/
def read? (cs : List Char) : Option Timestamp := do
  let (year, r) ← year? (skipBlanks cs)
  let (month, r) ← marked? '-' r
  let (day, r) ← marked? '-' r
  let r ←
    match r with
    | c :: r => if c = 'T' ∨ c = 't' ∨ c = ' ' then some r else none
    | [] => none
  let (hour, r) ← number? 2 (skipBlanks r)
  let (minute, r) ← marked? ':' r
  let (second, r) ← marked? ':' r
  let (nanosecond, r) ← fraction? r
  let (offset, r) ← offset? (skipBlanks r)
  let t : Timestamp := ⟨⟨year, month, day⟩, hour, minute, second, nanosecond⟩
  let u := t.toUniversal offset
  if skipBlanks r = [] ∧ t.Valid ∧ u.Valid ∧ -1440 < offset ∧ offset < 1440 then some u else none

example : (read? "2024-01-01 03:04:05.1+08:00".toList).map render =
    some "2023-12-31T19:04:05.100Z" := by decide +kernel

end Timestamp
end Rulebook
