import Rulebook.Context
import Rulebook.Json.Text

/-! Evaluation data: contexts as JSON objects of booleans, numbers and texts. -/

namespace Rulebook

/-- The value that a document holds. The whole document is read before its shape is judged. -/
def Value.ofDocument (room : Document.Room) (d : Document) : Except JsonFault Value := do
  let v ← Json.ofDocument room d
  match Value.ofJson? v with
  | some v => return v
  | none => .error .shape

def Operator.ofDocument (d : Document) : Except JsonFault Operator := do
  let s ← d.readText
  match Operator.ofSymbol? s with
  | some op => return op
  | none => .error .shape

namespace Context

def bindMembers (c : Context) : List (String × Json) → Except Fault Context
  | [] => .ok c
  | (k, v) :: r =>
    match Value.ofJson? v with
    | some x => bindMembers (c.insert k x) r
    | none => .error (.data (.badField k v.render))

def ofJson : Json → Except Fault Context
  | .object members => bindMembers .empty members
  | _ => .error (.data .notObject)

/-- Reads evaluation data. The text has to be JSON before its fields are looked at. -/
def ofText (s : String) : Except Fault Context := do
  let v ← (Json.parse s).mapError .json
  ofJson v

def bindDocument (room : Document.Room) (c : Context) : Members → Except JsonFault Context
  | .done stop => (Document.close stop).map fun _ => c
  | .member key d r => do
    let k ← key
    let v ← Value.ofDocument room d
    bindDocument room (c.insert k v) r

def ofDocument (room : Document.Room) : Document → Except JsonFault Context
  | .object ms => do
    let room ← Document.enter room
    bindDocument room .empty ms
  | d => .error d.mismatch

def toJson (c : Context) : Json :=
  .object (c.entries.map fun (k, v) => (k, v.toJson))

end Context
end Rulebook
