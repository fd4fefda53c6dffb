import Rulebook.Json

/-!
JSON documents: what a text holds in the order of the text, up to the place where it breaks off.
A document keeps repeated keys, and keeps each fault at the place where a reader meets it. So a
reader that wants a certain shape reports a wrong shape before a fault that stands behind it.
-/

namespace Rulebook

mutual

inductive Document where
  | null
  | boolean (b : Bool)
  | number (n : Except JsonFault JsonNumber)
  | text (s : Except JsonFault String)
  | array (items : Items)
  | object (members : Members)
  | broken (read skipped : JsonFault)

/-- The items of an array, up to its end or to a fault between two items. -/
inductive Items where
  | done (stop : Option JsonFault)
  | item (head : Document) (tail : Items)

inductive Members where
  | done (stop : Option JsonFault)
  | member (key : Except JsonFault String) (value : Document) (tail : Members)

end

namespace Document

def close : Option JsonFault → Except JsonFault Unit
  | none => .ok ()
  | some f => .error f

/-- The fault of a reader that meets the document where another shape has to stand. The inside of
a scalar is still read, the inside of an array or object is not. -/
def mismatch : Document → JsonFault
  | .number (.error f) => f
  | .text (.error f) => f
  | .broken f _ => f
  | _ => .shape

mutual

/-- Passes over a document. Only the written form counts: neither the size of numbers, nor pairs
of units, nor nesting. -/
def skip : Document → Except JsonFault Unit
  | .array is => skipItems is
  | .object ms => skipMembers ms
  | .broken _ f => .error f
  | _ => .ok ()

def skipItems : Items → Except JsonFault Unit
  | .done stop => close stop
  | .item d r => do
    d.skip
    skipItems r

def skipMembers : Members → Except JsonFault Unit
  | .done stop => close stop
  | .member _ d r => do
    d.skip
    skipMembers r

end

def readText : Document → Except JsonFault String
  | .text s => s
  | d => .error d.mismatch

def readText? : Document → Except JsonFault (Option String)
  | .null => .ok none
  | .text s => s.map some
  | d => .error d.mismatch

/-- How many levels of arrays and objects may still be opened; without a number, any. -/
abbrev Room := Option Nat

def textRoom : Room := some 127

def enter : Room → Except JsonFault Room
  | none => .ok none
  | some 0 => .error .malformed
  | some (n + 1) => .ok (some n)

end Document

namespace Json
open Document

mutual

/-- The value of a document. Members are sorted by key, and the last one of a key stays. -/
def ofDocument (room : Room) : Document → Except JsonFault Json
  | .null => .ok .null
  | .boolean b => .ok (.boolean b)
  | .number n => n.map .number
  | .text s => s.map .text
  | .broken f _ => .error f
  | .array is => do
    let room ← enter room
    return .array (← ofItems room is)
  | .object ms => do
    let room ← enter room
    return .object (← ofMembers room [] ms)

def ofItems (room : Room) : Items → Except JsonFault (List Json)
  | .done stop => (close stop).map fun _ => []
  | .item d r => do
    let v ← ofDocument room d
    return v :: (← ofItems room r)

def ofMembers (room : Room) (es : Entries Json) : Members → Except JsonFault (Entries Json)
  | .done stop => (close stop).map fun _ => es
  | .member key d r => do
    let k ← key
    let v ← ofDocument room d
    ofMembers room (Entries.insert k v es) r

end

mutual

def document : Json → Document
  | .null => .null
  | .boolean b => .boolean b
  | .number n => .number (.ok n)
  | .text s => .text (.ok s)
  | .array items => .array (itemsDocument items)
  | .object members => .object (membersDocument members)

def itemsDocument : List Json → Items
  | [] => .done none
  | v :: r => .item v.document (itemsDocument r)

def membersDocument : List (String × Json) → Members
  | [] => .done none
  | (k, v) :: r => .member (.ok k) v.document (membersDocument r)

end

end Json
end Rulebook
