import Rulebook.Decimal.Numeral
import Rulebook.Setting
import Rulebook.Timestamp

/-! Numbers, dates and words of TOML. -/

namespace Rulebook.Toml
open Numeral

def digits? (base : Nat) (value? : Char → Option Nat) : List Char → Option Nat
  | [] => none
  | c :: r => (value? c).bind fun n => more base value? n r
where
  more (base : Nat) (value? : Char → Option Nat) (n : Nat) : List Char → Option Nat
    | [] => some n
    | '_' :: c :: r => (value? c).bind fun d => more base value? (base * n + d) r
    | c :: r => (value? c).bind fun d => more base value? (base * n + d) r

def baseValue? (base : Nat) (c : Char) : Option Nat :=
  let n :=
    if isDigit c then c.toNat - 48
    else if 'a' ≤ c ∧ c ≤ 'f' then c.toNat - 87
    else if 'A' ≤ c ∧ c ≤ 'F' then c.toNat - 55
    else base
  if n < base then some n else none

def separated : List Char → Bool
  | [] => true
  | [c] => c != '_'
  | a :: '_' :: c :: r => isDigit a && isDigit c && separated (c :: r)
  | a :: r => a != '_' && separated r

def noLeadingZero : List Char → Bool
  | '0' :: c :: _ => !isDigit c && c != '_'
  | _ => true

def whole? (cs : List Char) : Option Setting :=
  let inRange (n : Int) : Option Setting :=
    if fitsWord n then some (.whole n) else none
  match cs with
  | '0' :: 'x' :: r => (digits? 16 (baseValue? 16) r).bind fun n => inRange n
  | '0' :: 'o' :: r => (digits? 8 (baseValue? 8) r).bind fun n => inRange n
  | '0' :: 'b' :: r => (digits? 2 (baseValue? 2) r).bind fun n => inRange n
  | _ =>
    let (negative, r) := sign cs
    if noLeadingZero r then
      (digits? 10 (baseValue? 10) r).bind fun n => inRange (if negative then -(n : Int) else n)
    else none

def real? (cs : List Char) : Option Setting :=
  let (negative, r) := sign cs
  match r with
  | ['i', 'n', 'f'] => some (.real (.signed negative .infinity))
  | ['n', 'a', 'n'] => some (.real .nan)
  | _ =>
    let plain := r.filter (· != '_')
    let (before, after) := spanDigits plain
    let (part, after) := fraction after
    let pointed := plain.drop before.length |>.head? |>.any (· == '.')
    if separated r ∧ noLeadingZero r ∧ before ≠ [] ∧ (¬ pointed ∨ part ≠ []) ∧
        (pointed ∨ after ≠ []) then
      (Numeral.read? plain).bind fun (_, d) =>
        let x := Binary64.ofDecimal negative d
        if x.IsFinite then some (.real x) else none
    else none

def two? : List Char → Option (Nat × List Char)
  | a :: b :: r =>
    if isDigit a ∧ isDigit b then some (Decimal.ofDigitChars [a, b], r) else none
  | _ => none

def expect? (c : Char) : List Char → Option (List Char)
  | c' :: r => if c' = c then some r else none
  | [] => none

def date? (cs : List Char) : Option (List Char × List Char) := do
  let year := cs.take 4
  if year.length ≠ 4 ∨ ¬ year.all isDigit then none
  let r ← expect? '-' (cs.drop 4)
  let (month, r) ← two? r
  let r ← expect? '-' r
  let (day, r) ← two? r
  let d : Date := ⟨Decimal.ofDigitChars year, month, day⟩
  if d.Valid then some (cs.take 10, r) else none

def fractionDigits (digits : List Char) : List Char :=
  let kept := ((digits.take 9).reverse.dropWhile (· == '0')).reverse
  if digits = [] then [] else '.' :: (if kept = [] then ['0'] else kept)

def time? (cs : List Char) : Option (List Char × List Char) := do
  let (hour, r) ← two? cs
  let r ← expect? ':' r
  let (minute, r) ← two? r
  let clock := cs.take 5
  if 23 < hour ∨ 59 < minute then none
  match r with
  | ':' :: r => do
    let (second, r') ← two? r
    if 60 < second then none
    let clock := clock ++ ':' :: r.take 2
    match r' with
    | '.' :: r =>
      let digits := r.takeWhile isDigit
      if digits = [] then none else some (clock ++ fractionDigits digits, r.drop digits.length)
    | r => some (clock, r)
  | r => some (clock, r)

def offset? : List Char → Option (List Char)
  | [] => some []
  | ['Z'] | ['z'] => some ['Z']
  | c :: r => do
    if c ≠ '+' ∧ c ≠ '-' then none
    let (hour, r') ← two? r
    let r' ← expect? ':' r'
    let (minute, r') ← two? r'
    if r' = [] ∧ hour ≤ 23 ∧ minute ≤ 59 then some (c :: r) else none

def moment? (cs : List Char) : Option Setting := do
  let text (cs : List Char) : Setting := .text (String.ofList cs)
  match date? cs with
  | some (d, []) => some (text d)
  | some (d, c :: r) =>
    if c = 'T' ∨ c = 't' ∨ c = ' ' then do
      let (t, r) ← time? r
      let o ← offset? r
      some (text (d ++ 'T' :: t ++ o))
    else none
  | none =>
    match time? cs with
    | some (t, []) => some (text t)
    | _ => none

def scalar? (cs : List Char) : Option Setting :=
  if cs = "true".toList then some (.boolean true)
  else if cs = "false".toList then some (.boolean false)
  else (whole? cs).orElse fun _ => (real? cs).orElse fun _ => moment? cs

end Rulebook.Toml
