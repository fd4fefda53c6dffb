/-! Lower case, for the letters of Latin, Greek and Cyrillic that have one. -/

namespace Rulebook.Text

/-- Ranges of capitals with the distance to their small letters. -/
def shiftedCapitals : List (Nat × Nat × Nat) :=
  [(0x41, 0x5A, 32), (0xC0, 0xD6, 32), (0xD8, 0xDE, 32), (0x391, 0x3A1, 32), (0x3A3, 0x3AB, 32),
    (0x400, 0x40F, 80), (0x410, 0x42F, 32)]

/-- Ranges in which each even letter is the capital of the next one. -/
def pairedEven : List (Nat × Nat) :=
  [(0x100, 0x12E), (0x132, 0x136), (0x14A, 0x176), (0x460, 0x480), (0x48A, 0x4BE), (0x4D0, 0x52E),
    (0x1E00, 0x1E94), (0x1EA0, 0x1EFE)]

def pairedOdd : List (Nat × Nat) := [(0x139, 0x147), (0x179, 0x17D), (0x4C1, 0x4CD)]

def lowerChar (c : Char) : Char :=
  let n := c.toNat
  match shiftedCapitals.find? fun (a, b, _) => a ≤ n && n ≤ b with
  | some (_, _, d) => Char.ofNat (n + d)
  | none =>
    if pairedEven.any (fun (a, b) => a ≤ n && n ≤ b && n % 2 == 0) ||
        pairedOdd.any (fun (a, b) => a ≤ n && n ≤ b && n % 2 == 1) then Char.ofNat (n + 1)
    else if n = 0x178 then '\u00ff'
    else c

example : lowerChar 'A' = 'a' ∧ lowerChar 'Ü' = 'ü' ∧ lowerChar 'z' = 'z' := by decide

def lower (s : String) : String := String.ofList (s.toList.map lowerChar)

end Rulebook.Text
