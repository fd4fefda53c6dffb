import Rulebook.Decimal.Numeral
import Rulebook.Setting

/-! Paths into settings: `engine.max_tree_depth`, `hosts[0].name`, `hosts[-1]`. -/

namespace Rulebook.Settings

inductive Step where
  | member (k : String)
  | index (i : Int)
  deriving DecidableEq, Repr

abbrev Path := List Step

def isWordChar (c : Char) : Bool :=
  Numeral.isDigit c || ('a' ≤ c && c ≤ 'z') || ('A' ≤ c && c ≤ 'Z') || c == '_' || c == '-'

def word? (cs : List Char) : Option (String × List Char) :=
  let word := cs.takeWhile isWordChar
  if word = [] then none else some (String.ofList word, cs.drop word.length)

/-- A whole number in brackets, of which the first one is open already. -/
def index? (cs : List Char) : Option (Int × List Char) :=
  let (negative, r) := Numeral.sign cs
  let (digits, r) := Numeral.spanDigits r
  match r with
  | ']' :: r =>
    if digits = [] then none
    else
      let n := Decimal.ofDigitChars digits
      some (if negative then -(n : Int) else n, r)
  | _ => none

def steps? : Nat → List Char → Option Path
  | 0, _ => none
  | _ + 1, [] => some []
  | fuel + 1, '.' :: r => do
    let (k, r) ← word? r
    let path ← steps? fuel r
    some (.member k :: path)
  | fuel + 1, '[' :: r => do
    let (i, r) ← index? r
    let path ← steps? fuel r
    some (.index i :: path)
  | _ + 1, _ :: _ => none

def Path.read? (s : String) : Option Path := do
  let (k, r) ← word? s.toList
  let path ← steps? (r.length + 1) r
  some (.member k :: path)

/-- The path that a key stands for. A key that is no path stands for itself. -/
def Path.ofKey (s : String) : Path := (Path.read? s).getD [.member s]

/-- Makes room for an index and changes the item there. Negative indices count from the end. -/
def changeItem (f : Setting → Setting) (i : Int) (items : List Setting) : List Setting :=
  let fill (n : Nat) : List Setting := List.replicate n .nothing
  if 0 ≤ i then
    (items ++ fill (i.toNat + 1 - items.length)).modify i.toNat f
  else if i.natAbs ≤ items.length then items.modify (items.length - i.natAbs) f
  else (fill (i.natAbs - items.length) ++ items).modify 0 f

/-- Lays a setting over what a path leads to. What stands in the way of the path goes. -/
def setAt (v : Setting) : Path → Setting → Setting
  | [], old => old.overlay v
  | .member k :: path, old =>
    let es := old.members
    .table (Entries.insert k (setAt v path ((Entries.get? k es).getD .nothing)) es)
  | .index i :: path, old =>
    match old with
    | .list items => .list (changeItem (setAt v path) i items)
    | _ => .list (changeItem (setAt v path) i [])

end Rulebook.Settings
