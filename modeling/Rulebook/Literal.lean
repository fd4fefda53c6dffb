import Rulebook.Decimal.Numeral
import Rulebook.Value

/-! Literals: the operands that stand for a value and not for a field. -/

namespace Rulebook.Literal

/-- The inside of a quoted text. One quote alone opens and closes the empty text. -/
def quoted? (cs : List Char) : Option (List Char) :=
  if cs.head? = some '\'' ∧ cs.getLast? = some '\'' then some cs.tail.dropLast else none

def number? (cs : List Char) : Option Binary64 :=
  (Numeral.read? cs).bind fun (negative, d) =>
    let x := Binary64.ofDecimal negative d
    if x.IsFinite then some x else none

/-- The value of an operand that is a quoted text or a numeral. Every other operand is a field. -/
def read? (literal : String) : Option Value :=
  match quoted? literal.toList with
  | some inner => some (.text (String.ofList inner))
  | none => (number? literal.toList).map .number

example : read? "'" = some (.text "") ∧ read? "'a'b'" = some (.text "a'b") := by decide

example : read? "-.5e1" = some (.number (.ofInt (-5))) := by decide +kernel

example : read? "1e400" = none ∧ read? "inf" = none ∧ read? "." = none := by decide +kernel

end Rulebook.Literal
