import Rulebook.Context
import Rulebook.Fault
import Rulebook.Tree

/-! Evaluation of trees. Both sides of an operator are evaluated before it is applied, also under
the connectives, so the first fault of the whole tree is the answer. -/

namespace Rulebook

def Context.resolve (c : Context) (literal : String) : Except Fault Value :=
  match Literal.read? literal with
  | some v => .ok v
  | none =>
    match c.get? literal with
    | some v => .ok v
    | none => .error (.unresolved literal)

namespace Operator

/-- What an ordering operator makes of an order; false for the other operators. -/
def accepts : Operator → Ordering → Bool
  | .lt, o => o.isLT
  | .le, o => o.isLE
  | .gt, o => o.isGT
  | .ge, o => o.isGE
  | _, _ => false

def apply (op : Operator) (a b : Value) : Except Fault Value :=
  match op with
  | .and => .ok (.boolean (a.isTrue && b.isTrue))
  | .or => .ok (.boolean (a.isTrue || b.isTrue))
  | .eq => .ok (.boolean (a.equal b))
  | .ne => .ok (.boolean (!a.equal b))
  | .lt | .le | .gt | .ge =>
    match a.compare? b with
    | some o => .ok (.boolean (op.accepts o))
    | none => .error (.mismatch op a.kind b.kind)

end Operator

def Tree.evaluate (c : Context) : Tree → Except Fault Value
  | .operand s => c.resolve s
  | .node op l r => do
    let a ← l.evaluate c
    let b ← r.evaluate c
    op.apply a b

structure Verdict where
  value : Value
  trace : List String
  deriving DecidableEq, Repr

def Verdict.matched (v : Verdict) : Bool := v.value.isTrue

namespace Trace

def operandLine (path literal : String) (v : Value) : String :=
  path ++ ": " ++ literal ++ " => " ++ v.display

def nodeLine (path : String) (op : Operator) (a b v : Value) : String :=
  path ++ ": " ++ a.display ++ " " ++ op.symbol ++ " " ++ b.display ++ " => " ++ v.display

end Trace

namespace Tree

/-- Evaluates the node at `path`. Lines follow the order in which nodes get their values. -/
def verdictAt (c : Context) (tracing : Bool) (path : String) : Tree → Except Fault Verdict
  | .operand s => do
    let v ← c.resolve s
    return ⟨v, if tracing then [Trace.operandLine path s v] else []⟩
  | .node op l r => do
    let a ← l.verdictAt c tracing (path ++ ".left")
    let b ← r.verdictAt c tracing (path ++ ".right")
    let v ← op.apply a.value b.value
    return ⟨v, a.trace ++ b.trace ++
      if tracing then [Trace.nodeLine path op a.value b.value v] else []⟩

def verdict (c : Context) (tracing : Bool) (t : Tree) : Except Fault Verdict :=
  t.verdictAt c tracing "root"

end Tree
end Rulebook
