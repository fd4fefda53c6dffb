import Rulebook.Json.Text
import Rulebook.Tree

/-! Records: the stored form of trees, before it is known to be one. -/

namespace Rulebook

structure Record where
  type : String
  value : Option String
  left : Option Record
  right : Option Record

namespace Record

inductive Slot where
  | type
  | value
  | left
  | right
  deriving DecidableEq, Repr

def Slot.ofKey? : String → Option Slot
  | "type" => some .type
  | "value" => some .value
  | "left" => some .left
  | "right" => some .right
  | _ => none

/-- A record that is written without keys has its slots in this order. -/
def Slot.ofPlace? : Nat → Option Slot
  | 0 => some .type
  | 1 => some .value
  | 2 => some .left
  | 3 => some .right
  | _ => none

structure Draft where
  type : Option String
  value : Option (Option String)
  left : Option (Option Record)
  right : Option (Option Record)

namespace Draft

def empty : Draft := ⟨none, none, none, none⟩

def has (p : Draft) : Slot → Bool
  | .type => p.type.isSome
  | .value => p.value.isSome
  | .left => p.left.isSome
  | .right => p.right.isSome

/-- Fills a slot from a document. `child` is the record that the document holds; null holds none. -/
def fill (p : Draft) (slot : Slot) (d : Document) (child : Except JsonFault Record) :
    Except JsonFault Draft :=
  let child? : Except JsonFault (Option Record) :=
    match d with
    | .null => .ok none
    | _ => child.map some
  match slot with
  | .type => d.readText.map fun s => ⟨some s, p.value, p.left, p.right⟩
  | .value => d.readText?.map fun s => ⟨p.type, some s, p.left, p.right⟩
  | .left => child?.map fun r => ⟨p.type, p.value, some r, p.right⟩
  | .right => child?.map fun r => ⟨p.type, p.value, p.left, some r⟩

def finish (p : Draft) : Except JsonFault Record :=
  match p.type with
  | some type => .ok ⟨type, p.value.join, p.left.join, p.right.join⟩
  | none => .error .shape

end Draft

open Document

mutual

/-- Reads an object with these keys, each at most once, or an array of the slots in order. -/
def ofDocument (room : Room) : Document → Except JsonFault Record
  | .object ms => do
    let room ← enter room
    let p ← ofMembers room .empty ms
    p.finish
  | .array is => do
    let room ← enter room
    let p ← ofItems room .empty 0 is
    p.finish
  | d => .error d.mismatch

def ofMembers (room : Room) (p : Draft) : Members → Except JsonFault Draft
  | .done stop => (close stop).map fun _ => p
  | .member key d r => do
    let k ← key
    match Slot.ofKey? k with
    -- A key that no slot has may come more than once.
    | none =>
      d.skip
      ofMembers room p r
    | some slot =>
      if p.has slot then .error .shape
      else
        let p ← p.fill slot d (ofDocument room d)
        ofMembers room p r

def ofItems (room : Room) (p : Draft) (place : Nat) : Items → Except JsonFault Draft
  | .done stop => (close stop).map fun _ => p
  | .item d r =>
    match Slot.ofPlace? place with
    -- The reader expects the bracket after the last slot.
    | none => .error .malformed
    | some slot => do
      let p ← p.fill slot d (ofDocument room d)
      ofItems room p (place + 1) r

end

/-- The record of a value. A value has no text to be malformed: all its faults are of shape. -/
def ofJson (v : Json) : Except JsonFault Record :=
  (ofDocument none v.document).mapError fun _ => .shape

end Record

namespace Tree

/-- The tree of a record. An operator needs its symbol and both children, an operand its literal
and no child. The record itself is judged before its children, and the left child first. -/
def ofRecord : Record → Except Fault Tree
  | ⟨type, value, left, right⟩ =>
    if type = "operator" then
      match value with
      | none => .error (.record .symbolMissing)
      | some symbol =>
        match Operator.ofSymbol? symbol with
        | none => .error (.unknownOperator symbol)
        | some op =>
          match left, right with
          | some l, some r => do
            let l ← ofRecord l
            let r ← ofRecord r
            return .node op l r
          | _, _ => .error (.record (.childMissing op))
    else if type = "operand" then
      if left.isSome ∨ right.isSome then .error (.record .childOnOperand)
      else
        match value with
        | some literal =>
          if literal = "" then .error (.record .literalMissing) else .ok (.operand literal)
        | none => .error (.record .literalMissing)
    else .error (.unknownRecord type)

def record : Tree → Json
  | .operand s => .object [("type", .text "operand"), ("value", .text s)]
  | .node op l r =>
    .object [("type", .text "operator"), ("value", .text op.symbol),
      ("left", l.record), ("right", r.record)]

/-- A stored tree as a JSON value, with its keys in increasing order. -/
def toJson : Tree → Json
  | .operand s => .object [("type", .text "operand"), ("value", .text s)]
  | .node op l r =>
    .object [("left", l.toJson), ("right", r.toJson),
      ("type", .text "operator"), ("value", .text op.symbol)]

def ofJson (v : Json) : Except Fault Tree := do
  let r ← (Record.ofJson v).mapError .json
  ofRecord r

/-- Reads a stored tree. The whole text is read before the record is judged. -/
def ofText (s : String) : Except Fault Tree := do
  let r ← ((JsonText.ofString s).read (Record.ofDocument Document.textRoom)).mapError .json
  ofRecord r

def ofDocument (room : Document.Room) (d : Document) : Except JsonFault Tree := do
  let r ← Record.ofDocument room d
  (ofRecord r).mapError fun _ => .shape

end Tree
end Rulebook
