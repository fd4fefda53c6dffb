import Rulebook.Record
import Rulebook.Timestamp

/-! Rule records: a rule text with its tree, under an identifier and the time of its creation. -/

namespace Rulebook

structure RuleRecord where
  id : String
  rule : String
  tree : Tree
  createdAt : Timestamp
  deriving DecidableEq

namespace RuleRecord

inductive Slot where
  | id
  | rule
  | tree
  | createdAt
  deriving DecidableEq, Repr

def Slot.ofKey? : String → Option Slot
  | "id" => some .id
  | "rule" => some .rule
  | "ast" => some .tree
  | "created_at" => some .createdAt
  | _ => none

def Slot.ofPlace? : Nat → Option Slot
  | 0 => some .id
  | 1 => some .rule
  | 2 => some .tree
  | 3 => some .createdAt
  | _ => none

structure Draft where
  id : Option String
  rule : Option String
  tree : Option Tree
  createdAt : Option Timestamp

namespace Draft

def empty : Draft := ⟨none, none, none, none⟩

def has (p : Draft) : Slot → Bool
  | .id => p.id.isSome
  | .rule => p.rule.isSome
  | .tree => p.tree.isSome
  | .createdAt => p.createdAt.isSome

def readTime (d : Document) : Except JsonFault Timestamp := do
  let s ← d.readText
  match Timestamp.read? s.toList with
  | some t => return t
  | none => .error .shape

def fill (room : Document.Room) (p : Draft) (slot : Slot) (d : Document) :
    Except JsonFault Draft :=
  match slot with
  | .id => d.readText.map fun s => ⟨some s, p.rule, p.tree, p.createdAt⟩
  | .rule => d.readText.map fun s => ⟨p.id, some s, p.tree, p.createdAt⟩
  | .tree => (Tree.ofDocument room d).map fun t => ⟨p.id, p.rule, some t, p.createdAt⟩
  | .createdAt => (readTime d).map fun t => ⟨p.id, p.rule, p.tree, some t⟩

/-- A record without a time was created now. -/
def finish (now : Timestamp) (p : Draft) : Except JsonFault RuleRecord :=
  match p.id, p.rule, p.tree with
  | some id, some rule, some tree => .ok ⟨id, rule, tree, p.createdAt.getD now⟩
  | _, _, _ => .error .shape

end Draft

def ofMembers (room : Document.Room) (p : Draft) : Members → Except JsonFault Draft
  | .done stop => (Document.close stop).map fun _ => p
  | .member key d r => do
    let k ← key
    match Slot.ofKey? k with
    | none =>
      d.skip
      ofMembers room p r
    | some slot =>
      if p.has slot then .error .shape
      else
        let p ← p.fill room slot d
        ofMembers room p r

def ofItems (room : Document.Room) (p : Draft) (place : Nat) : Items → Except JsonFault Draft
  | .done stop => (Document.close stop).map fun _ => p
  | .item d r =>
    match Slot.ofPlace? place with
    | none => .error .malformed
    | some slot => do
      let p ← p.fill room slot d
      ofItems room p (place + 1) r

def ofDocument (now : Timestamp) (room : Document.Room) : Document → Except JsonFault RuleRecord
  | .object ms => do
    let room ← Document.enter room
    let p ← ofMembers room .empty ms
    p.finish now
  | .array is => do
    let room ← Document.enter room
    let p ← ofItems room .empty 0 is
    p.finish now
  | d => .error d.mismatch

def ofText (now : Timestamp) (s : String) : Except JsonFault RuleRecord :=
  (JsonText.ofString s).read (ofDocument now Document.textRoom)

def record (r : RuleRecord) : Json :=
  .object [("id", .text r.id), ("rule", .text r.rule), ("ast", r.tree.record),
    ("created_at", .text r.createdAt.render)]

def toJson (r : RuleRecord) : Json :=
  .object [("ast", r.tree.toJson), ("created_at", .text r.createdAt.render), ("id", .text r.id),
    ("rule", .text r.rule)]

end RuleRecord
end Rulebook
