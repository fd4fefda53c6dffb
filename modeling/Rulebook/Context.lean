import Rulebook.Entries
import Rulebook.Value

/-! Evaluation contexts: the fields that data bind, each to one value. -/

namespace Rulebook

structure Context where
  entries : Entries Value
  increasing : entries.Increasing

namespace Context

def empty : Context := ⟨[], List.Pairwise.nil⟩

def get? (c : Context) (field : String) : Option Value := c.entries.get? field

def insert (c : Context) (field : String) (v : Value) : Context :=
  ⟨Entries.insert field v c.entries, c.increasing.insert field v⟩

def ofList (kvs : List (String × Value)) : Context :=
  ⟨Entries.ofList kvs, Entries.increasing_ofList kvs⟩

def size (c : Context) : Nat := c.entries.length

theorem get?_insert (c : Context) (field x : String) (v : Value) :
    (c.insert field v).get? x = if x = field then some v else c.get? x :=
  Entries.get?_insert field x v c.entries

def equal (c d : Context) : Bool :=
  c.size == d.size &&
    (c.entries.zip d.entries).all fun (a, b) => a.1 == b.1 && a.2.equal b.2

end Context
end Rulebook
