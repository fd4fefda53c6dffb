import Rulebook.Literal
import Rulebook.Operator

/-! Rule trees: an operand, or an operator over two trees. -/

namespace Rulebook

inductive Tree where
  | operand (literal : String)
  | node (op : Operator) (left right : Tree)
  deriving DecidableEq, Repr

def insertKey (k : String) : List String → List String
  | [] => [k]
  | k' :: r => if k < k' then k :: k' :: r else if k = k' then k' :: r else k' :: insertKey k r

theorem mem_insertKey (k x : String) (ks : List String) :
    x ∈ insertKey k ks ↔ x = k ∨ x ∈ ks := by
  induction ks with
  | nil => simp [insertKey]
  | cons k' r ih =>
    simp only [insertKey]
    split
    · simp
    · split
      · next h => simp [h]
      · simp only [List.mem_cons, ih]
        grind

namespace Tree

/-- The number of edges from the root to the deepest operand. -/
def depth : Tree → Nat
  | operand _ => 0
  | node _ l r => 1 + max l.depth r.depth

def operands : Tree → List String
  | operand s => [s]
  | node _ l r => l.operands ++ r.operands

def addFields : Tree → List String → List String
  | operand s, ks => if (Literal.read? s).isNone then insertKey s ks else ks
  | node _ l r, ks => r.addFields (l.addFields ks)

def fields (t : Tree) : List String := t.addFields []

theorem mem_addFields (t : Tree) (x : String) (ks : List String) :
    x ∈ t.addFields ks ↔ (x ∈ t.operands ∧ Literal.read? x = none) ∨ x ∈ ks := by
  induction t generalizing ks with
  | operand s =>
    simp only [addFields, operands, List.mem_singleton, Option.isNone_iff_eq_none]
    split
    · rw [mem_insertKey]
      grind
    · grind
  | node _ l r ihl ihr =>
    simp only [addFields, ihr, ihl, operands, List.mem_append]
    grind

theorem mem_fields {t : Tree} {x : String} :
    x ∈ t.fields ↔ x ∈ t.operands ∧ Literal.read? x = none := by
  simp [fields, mem_addFields]

/-- The tree as one line: connectives stand in brackets, comparisons do not. -/
def formula : Tree → String
  | operand s => s
  | node op l r =>
    let line := l.formula ++ " " ++ op.symbol ++ " " ++ r.formula
    if op.isConnective then "(" ++ line ++ ")" else line

end Tree
end Rulebook
