import Rulebook.Entries
import Rulebook.Json.Quoted

/-! JSON values, and the texts that write them. -/

namespace Rulebook

/-- The members of an object are kept in the order in which they are written. -/
inductive Json where
  | null
  | boolean (b : Bool)
  | number (n : JsonNumber)
  | text (s : String)
  | array (items : List Json)
  | object (members : List (String × Json))

namespace Json

mutual

def write : Json → List Char
  | .null => "null".toList
  | .boolean true => "true".toList
  | .boolean false => "false".toList
  | .number n => n.write
  | .text s => Quoted.write s
  | .array items => '[' :: writeItems items ++ [']']
  | .object members => '{' :: writeMembers members ++ ['}']

def writeItems : List Json → List Char
  | [] => []
  | [v] => v.write
  | v :: w :: r => v.write ++ ',' :: writeItems (w :: r)

def writeMembers : List (String × Json) → List Char
  | [] => []
  | [(k, v)] => Quoted.write k ++ ':' :: v.write
  | (k, v) :: m :: r => Quoted.write k ++ ':' :: v.write ++ ',' :: writeMembers (m :: r)

end

def render (v : Json) : String := String.ofList v.write

def newline (depth : Nat) : List Char := '\n' :: List.replicate (2 * depth) ' '

mutual

def writeLines (depth : Nat) : Json → List Char
  | .array [] => "[]".toList
  | .array (v :: r) =>
    '[' :: newline (depth + 1) ++ itemLines (depth + 1) (v :: r) ++ newline depth ++ [']']
  | .object [] => ['{', '}']
  | .object (m :: r) =>
    '{' :: newline (depth + 1) ++ memberLines (depth + 1) (m :: r) ++ newline depth ++ ['}']
  | v => v.write

def itemLines (depth : Nat) : List Json → List Char
  | [] => []
  | [v] => v.writeLines depth
  | v :: w :: r => v.writeLines depth ++ ',' :: newline depth ++ itemLines depth (w :: r)

def memberLines (depth : Nat) : List (String × Json) → List Char
  | [] => []
  | [(k, v)] => Quoted.write k ++ ':' :: ' ' :: v.writeLines depth
  | (k, v) :: m :: r =>
    Quoted.write k ++ ':' :: ' ' :: v.writeLines depth ++ ',' :: newline depth ++
      memberLines depth (m :: r)

end

def renderLines (v : Json) : String := String.ofList (v.writeLines 0)

end Json

def Value.toJson : Value → Json
  | .boolean b => .boolean b
  | .number x => if x.IsFinite then .number (.real x) else .null
  | .text s => .text s

def Value.ofJson? : Json → Option Value
  | .boolean b => some (.boolean b)
  | .number n => some (.number n.toBinary64)
  | .text s => some (.text s)
  | _ => none

end Rulebook
