import Rulebook.Settings.Conversion

/-! Environment variables as settings: `RULE_ENGINE__TRACE_ENABLED` sets `engine.trace_enabled`. -/

namespace Rulebook

abbrev Variables := List (String × String)

namespace Settings

def keyChars? (cs : List Char) : Option (List Char) :=
  let mark := "rule_".toList
  if mark.isPrefixOf cs then some (cs.drop mark.length) else none

def points : List Char → List Char
  | '_' :: '_' :: r => '.' :: points r
  | c :: r => c :: points r
  | [] => []

def variableKey? (name : String) : Option String :=
  (keyChars? (Text.lower name).toList).map fun cs => String.ofList (points cs)

example : variableKey? "RULE_ENGINE__TRACE_ENABLED" = some "engine.trace_enabled" := by
  decide +kernel

def whole? (s : String) : Option Int :=
  let (negative, digits) := Numeral.sign s.toList
  if digits ≠ [] ∧ digits.all Numeral.isDigit then
    let n : Int := Decimal.ofDigitChars digits
    let n := if negative then -n else n
    if Numeral.fitsWord n then some n else none
  else none

def real? (s : String) : Option Binary64 :=
  match Numeral.read? s.toList with
  | some (negative, d) => some (.ofDecimal negative d)
  | none =>
    let (negative, r) := Numeral.sign s.toList
    let word := String.ofList (r.map Char.toLower)
    if word = "inf" ∨ word = "infinity" then some (.signed negative .infinity)
    else if word = "nan" then some .nan
    else none

/-- The value of a variable is what its text looks like. -/
def variableValue (s : String) : Setting :=
  let t := Text.lower s
  if t = "true" then .boolean true
  else if t = "false" then .boolean false
  else
    match whole? s, real? s with
    | some n, _ => .whole n
    | none, some x => .real x
    | none, none => .text s

end Settings
end Rulebook
