import Rulebook.Text.Blank

/-! Normal texts: words with single spaces between them. -/

namespace Rulebook.RuleText
open Text

/-- Writes one space for the blanks before a word. Blanks after the last word are dropped. -/
def squeeze (gap : Bool) : List Char → List Char
  | [] => []
  | c :: r =>
    if isBlank c then squeeze true r
    else if gap then ' ' :: c :: squeeze false r
    else c :: squeeze false r

def normalChars (cs : List Char) : List Char := squeeze false (cs.dropWhile isBlank)

def normalize (rule : String) : String := String.ofList (normalChars rule.toList)

end Rulebook.RuleText
