import Rulebook.Proofs.Conclusion
import Rulebook.Proofs.Outcome
import Rulebook.Proofs.Value

/-! Mirror images. A tree and its mirror image have the same value wherever one of them has a
value. Where neither has one their faults may differ, since each of them tells its first. -/

namespace Rulebook

namespace Operator

def mirror : Operator → Operator
  | .lt => .gt
  | .gt => .lt
  | .le => .ge
  | .ge => .le
  | op => op

theorem accepts_mirror (op : Operator) (o : Ordering) :
    op.mirror.accepts o.swap = op.accepts o := by
  cases op <;> cases o <;> rfl

theorem toOption_apply_ordering {op : Operator} (hop : op.isOrdering) (a b : Value) :
    (op.apply a b).toOption = (a.compare? b).map fun o => .boolean (op.accepts o) := by
  cases op with
  | and | or | eq | ne => cases hop
  | lt | le | gt | ge =>
    simp only [apply]
    cases a.compare? b <;> rfl

theorem isOrdering_mirror (op : Operator) : op.mirror.isOrdering = op.isOrdering := by
  cases op <;> rfl

theorem toOption_apply_mirror (op : Operator) (a b : Value) :
    (op.mirror.apply b a).toOption = (op.apply a b).toOption := by
  cases hop : op.isOrdering with
  | true =>
    rw [toOption_apply_ordering hop, toOption_apply_ordering ((isOrdering_mirror op).trans hop),
      ← Value.compare?_swap a b, Option.map_map]
    congr 1
    funext o
    rw [Function.comp_apply, accepts_mirror]
  | false =>
    cases op with
    | and => simp [mirror, apply, Bool.and_comm]
    | or => simp [mirror, apply, Bool.or_comm]
    | eq | ne => simp [mirror, apply, Value.equal_comm b a]
    | lt | le | gt | ge => cases hop

end Operator

namespace Tree

def mirror : Tree → Tree
  | operand s => operand s
  | node op l r => node op.mirror r.mirror l.mirror

/- The sides are evaluated in the other order. That is seen in their faults only. -/
theorem toOption_evaluate_mirror (c : Context) (t : Tree) :
    (t.mirror.evaluate c).toOption = (t.evaluate c).toOption := by
  induction t with
  | operand s => rfl
  | node op l r ihl ihr =>
    simp only [mirror, evaluate, toOption_bind, ihl, ihr, Operator.toOption_apply_mirror]
    exact Option.bind_comm (f := fun b a => (op.apply a b).toOption) _ _

/-- Exchanging left and right everywhere, and turning the ordering operators with it, changes no
value. So a tree and its mirror image fail on the same contexts. -/
theorem evaluate_mirror (t : Tree) (c : Context) :
    (∀ v, t.evaluate c = .ok v ↔ t.mirror.evaluate c = .ok v) ∧
      ((∃ f, t.evaluate c = .error f) ↔ ∃ f, t.mirror.evaluate c = .error f) := by
  have heq := toOption_evaluate_mirror c t
  constructor
  · intro v
    rw [← toOption_eq_some, ← toOption_eq_some, heq]
  · rw [← toOption_eq_none, ← toOption_eq_none, heq]

-- The side that is evaluated first has the first fault.
example : (node .lt (operand "a") (operand "b")).evaluate .empty = .error (.unresolved "a") ∧
    (node .lt (operand "a") (operand "b")).mirror.evaluate .empty = .error (.unresolved "b") := by
  decide +kernel

end Tree
end Rulebook
