import Rulebook.RuleText

/-! Combining rules: each distinct text once, as a tree whose sides hold equally many rules. -/

namespace Rulebook.Combination

def distinct : List String → List String
  | [] => []
  | s :: r => s :: (distinct r).filter (· != s)

def readings (rules : List String) : List (String × Except Fault Tree) :=
  (distinct rules).map fun s => (s, RuleText.parse s)

def trees (rules : List String) : List Tree :=
  (distinct rules).filterMap fun s => (RuleText.parse s).toOption

/-- Joins trees under one operator. The right side gets the odd tree. -/
def balanced (op : Operator) : List Tree → Except Fault Tree
  | [] => .error .nothingToCombine
  | [t] => .ok t
  | a :: b :: r => do
    let half := (r.length + 2) / 2
    let left ← balanced op ((a :: b :: r).take half)
    let right ← balanced op ((a :: b :: r).drop half)
    return .node op left right
termination_by ts => ts.length
decreasing_by
  all_goals
    simp only [List.length_take, List.length_drop, List.length_cons]
    omega

def combine (op : Operator) (rules : List String) : Except Fault Tree :=
  balanced op (trees rules)

end Rulebook.Combination
