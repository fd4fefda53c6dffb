import Rulebook.Fault
import Rulebook.RuleText.Comparison
import Rulebook.RuleText.Cut
import Rulebook.RuleText.Normal

/-! Rule texts as trees. A text is cut at its last AND, and only where none is left at its last
OR. So AND binds looser than OR, and both group to the left. -/

namespace Rulebook.RuleText

def joint (op : Operator) : List Char := ' ' :: op.symbol.toList ++ [' ']

theorem joint_length_pos (op : Operator) : 0 < (joint op).length := by simp [joint]

/-- The tree of a normal text. The left part is read first. -/
def tree (cs : List Char) : Except Fault Tree :=
  match _cut : cutLast? (joint .and) cs with
  | some (a, b) => do
    let l ← tree a
    let r ← tree b
    return .node .and l r
  | none =>
    match _cut : cutLast? (joint .or) cs with
    | some (a, b) => do
      let l ← tree a
      let r ← tree b
      return .node .or l r
    | none =>
      match comparison? cs with
      | some t => .ok t
      | none => .error (.unreadable (String.ofList cs))
termination_by cs.length
decreasing_by
  all_goals
    have := cutLast?_length _cut
    have := joint_length_pos .and
    have := joint_length_pos .or
    omega

def parse (rule : String) : Except Fault Tree := tree (normalChars rule.toList)

/- The AND is the root although an OR stands to the right of it. -/
example : (parse "a = 1 AND  b>2 OR c='x'").toOption.map Tree.formula =
    some "(a = 1 AND (b > 2 OR c = 'x'))" := by decide +kernel

end Rulebook.RuleText
