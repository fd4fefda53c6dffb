import Rulebook.Decimal.Numeral
import Rulebook.Text.Blank
import Rulebook.Tree

/-! Comparisons inside a text: a word of letters, a sign, and a quoted text or digits. -/

namespace Rulebook.RuleText
open Text

def isLetter (c : Char) : Bool := ('a' ≤ c && c ≤ 'z') || ('A' ≤ c && c ≤ 'Z')

def sign? : List Char → Option (Operator × List Char)
  | '<' :: '=' :: r => some (.le, r)
  | '>' :: '=' :: r => some (.ge, r)
  | '!' :: '=' :: r => some (.ne, r)
  | '<' :: r => some (.lt, r)
  | '>' :: r => some (.gt, r)
  | '=' :: r => some (.eq, r)
  | _ => none

/-- The right operand at the start of a text: a quoted text that is not empty, or digits. -/
def rightOperand? : List Char → Option (List Char)
  | '\'' :: r =>
    let inner := r.takeWhile (· != '\'')
    if inner ≠ [] ∧ inner.length < r.length then some ('\'' :: inner ++ ['\'']) else none
  | cs =>
    let digits := cs.takeWhile Numeral.isDigit
    if digits ≠ [] then some digits else none

def comparisonHere? (cs : List Char) : Option Tree :=
  let word := cs.takeWhile isLetter
  if word = [] then none
  else
    (sign? ((cs.dropWhile isLetter).dropWhile isBlank)).bind fun (op, r) =>
      (rightOperand? (r.dropWhile isBlank)).map fun right =>
        .node op (.operand (String.ofList word)) (.operand (String.ofList right))

/-- The first comparison of a text. What stands around it is passed over. -/
def comparison? : List Char → Option Tree
  | [] => none
  | c :: r => (comparisonHere? (c :: r)).orElse fun _ => comparison? r

end Rulebook.RuleText
