import Rulebook.Decimal.Numeral
import Rulebook.Setting
import Rulebook.Text.Lower
import Rulebook.Text.Visible

/-! Settings as booleans, whole numbers and texts. -/

namespace Rulebook

inductive Unexpected where
  | nothing
  | whole (n : Int)
  | text (s : String)
  | list
  | table
  deriving DecidableEq, Repr

def Unexpected.message : Unexpected → String
  | .nothing => "unit value"
  | .whole n => "64-bit integer " ++ String.ofList ['\x60'] ++ toString n ++
    String.ofList ['\x60']
  | .text s => "string " ++ Text.visible s
  | .list => "sequence"
  | .table => "map"

inductive Wanted where
  | boolean
  | whole
  | unsigned
  | text
  deriving DecidableEq, Repr

def Wanted.message : Wanted → String
  | .boolean => "a boolean"
  | .whole => "an integer"
  | .unsigned => "an unsigned 64 bit or less integer"
  | .text => "a string"

/-- Why settings cannot be loaded. A section that is no table is named without its kind. -/
inductive SettingsFault where
  | file
  | kind (key : String) (unexpected : Unexpected) (wanted : Wanted)
  | section (key : String)
  deriving DecidableEq, Repr

def SettingsFault.message : SettingsFault → String
  | .file => "a file is no TOML"
  | .kind key unexpected wanted =>
    "invalid type: " ++ unexpected.message ++ ", expected " ++ wanted.message ++ " for key " ++ key
  | .section key => "no table for key " ++ key

namespace Setting

abbrev Converted (α : Type) := Except (Unexpected × Wanted) α

def top : Nat := 0xffffffffffffffff

def unsigned? (s : String) : Option Nat :=
  let digits :=
    match s.toList with
    | '+' :: r => r
    | r => r
  if digits ≠ [] ∧ digits.all Numeral.isDigit then
    let n := Decimal.ofDigitChars digits
    if n ≤ top then some n else none
  else none

def isYes (s : String) : Bool := s == "true" || s == "on" || s == "yes"

def isNo (s : String) : Bool := s == "false" || s == "off" || s == "no"

/-- Numbers are rounded to a whole number that is not negative. -/
def toUnsigned : Setting → Converted Nat
  | .nothing => .error (.nothing, .whole)
  | .boolean b => .ok b.toNat
  | .whole n => if 0 ≤ n then .ok n.toNat else .error (.whole n, .unsigned)
  | .real x => .ok (x.toNatWithin top)
  | .text s =>
    let t := Text.lower s
    if isYes t then .ok 1
    else if isNo t then .ok 0
    else
      match unsigned? s with
      | some n => .ok n
      | none => .error (.text s, .whole)
  | .list _ => .error (.list, .whole)
  | .table _ => .error (.table, .whole)

def toBoolean : Setting → Converted Bool
  | .nothing => .error (.nothing, .boolean)
  | .boolean b => .ok b
  | .whole n => .ok (n != 0)
  | .real x => .ok !x.isZero
  | .text s =>
    let t := Text.lower s
    if t = "1" ∨ isYes t then .ok true
    else if t = "0" ∨ isNo t then .ok false
    else .error (.text t, .boolean)
  | .list _ => .error (.list, .boolean)
  | .table _ => .error (.table, .boolean)

def toText : Setting → Converted String
  | .nothing => .error (.nothing, .text)
  | .boolean b => .ok (if b then "true" else "false")
  | .whole n => .ok (toString n)
  | .real x => .ok (String.ofList x.display)
  | .text s => .ok s
  | .list _ => .error (.list, .text)
  | .table _ => .error (.table, .text)

end Setting
end Rulebook
