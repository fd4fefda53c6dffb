import Rulebook.Binary64
import Rulebook.Entries

/-! Settings as they are given: values of no fixed type, in tables and lists. -/

namespace Rulebook

/-- `nothing` fills the gaps of a list. -/
inductive Setting where
  | nothing
  | boolean (b : Bool)
  | whole (n : Int)
  | real (x : Binary64)
  | text (s : String)
  | list (items : List Setting)
  | table (members : List (String × Setting))

namespace Setting

def members : Setting → Entries Setting
  | .table es => es
  | _ => []

mutual

/-- Lays a setting over another. Tables are merged member by member, anything else replaces. -/
def overlay (old : Setting) : Setting → Setting
  | .table es => .table (overlayMembers old.members es)
  | v => v

def overlayMembers (old : Entries Setting) : List (String × Setting) → Entries Setting
  | [] => old
  | (k, v) :: r =>
    overlayMembers (Entries.insert k (overlay ((Entries.get? k old).getD .nothing) v) old) r

end

end Setting
end Rulebook
