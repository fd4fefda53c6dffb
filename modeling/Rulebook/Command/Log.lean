import Rulebook.Json
import Rulebook.Observation

/-! Lines of the log. -/

namespace Rulebook

/-- A line of the log. The end of a span is logged under the message `close`. -/
structure LogLine where
  level : Level
  target : String
  message : String
  fields : LogFields
  deriving DecidableEq, Repr

namespace LogLine

def toJson (time : String) (l : LogLine) : Json :=
  .object [("timestamp", .text time), ("level", .text l.level.name),
    ("fields", .object (("message", .text l.message) :: l.fields.map fun (k, v) => (k, .text v))),
    ("target", .text l.target)]

def text (time : String) (l : LogLine) : String :=
  " ".intercalate ([time, l.level.name, l.target ++ ":", l.message] ++
    l.fields.map fun (k, v) => k ++ "=" ++ v)

def render (json : Bool) (time : String) (l : LogLine) : String :=
  if json then (l.toJson time).render else l.text time

end LogLine
end Rulebook
