import Rulebook.Binary64

/-! The values of evaluation. -/

namespace Rulebook

inductive Value where
  | boolean (b : Bool)
  | number (x : Binary64)
  | text (s : String)
  deriving DecidableEq, Repr

inductive Kind where
  | boolean
  | number
  | text
  deriving DecidableEq, Repr

def Kind.name : Kind → String
  | .boolean => "boolean"
  | .number => "number"
  | .text => "string"

namespace Value

def kind : Value → Kind
  | .boolean _ => .boolean
  | .number _ => .number
  | .text _ => .text

/-- The truth of a value under a connective. NaN is true, the empty string is false. -/
def isTrue : Value → Bool
  | .boolean b => b
  | .number x => !x.isZero
  | .text s => s != ""

def equal : Value → Value → Bool
  | .boolean a, .boolean b => a == b
  | .number x, .number y => x.equal y
  | .text s, .text t => s == t
  | _, _ => false

/-- Numbers compare as numbers and texts by code points; nothing else compares. -/
def compare? : Value → Value → Option Ordering
  | .number x, .number y => x.compare? y
  | .text s, .text t => some (compare s t)
  | _, _ => none

def display : Value → String
  | .boolean b => if b then "true" else "false"
  | .number x => String.ofList x.display
  | .text s => "'" ++ s ++ "'"

end Value
end Rulebook
