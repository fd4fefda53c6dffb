/-! The operators of rules: two connectives and six comparisons. -/

namespace Rulebook

inductive Operator where
  | and
  | or
  | eq
  | ne
  | lt
  | le
  | gt
  | ge
  deriving DecidableEq, Repr

namespace Operator

def all : List Operator := [.and, .or, .eq, .ne, .lt, .le, .gt, .ge]

theorem mem_all (op : Operator) : op ∈ all := by cases op <;> decide

def symbol : Operator → String
  | .and => "AND"
  | .or => "OR"
  | .eq => "="
  | .ne => "!="
  | .lt => "<"
  | .le => "<="
  | .gt => ">"
  | .ge => ">="

def ofSymbol? (s : String) : Option Operator := all.find? fun op => op.symbol == s

theorem ofSymbol?_symbol (op : Operator) : ofSymbol? op.symbol = some op := by
  cases op <;> rfl

theorem symbol_of_ofSymbol? {s : String} {op : Operator} (h : ofSymbol? s = some op) :
    op.symbol = s := by
  have := List.find?_some h
  simpa using this

theorem symbol_injective {a b : Operator} (h : a.symbol = b.symbol) : a = b := by
  have ha := ofSymbol?_symbol a
  rw [h, ofSymbol?_symbol] at ha
  exact (Option.some.inj ha).symm

def isConnective : Operator → Bool
  | .and | .or => true
  | _ => false

end Operator
end Rulebook
