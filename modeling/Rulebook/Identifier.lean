/-! Identifiers made of random octets, in the fourth version of their standard. -/

namespace Rulebook.Identifier

/-- Marks the version in the seventh octet, and the variant in the ninth. -/
def mark (octets : List UInt8) : List UInt8 :=
  (octets.modify 6 fun b => b % 16 + 0x40).modify 8 fun b => b % 64 + 0x80

def hexDigit (b : UInt8) : Char := Nat.digitChar b.toNat

def hex (b : UInt8) : List Char := [hexDigit (b / 16), hexDigit (b % 16)]

def groups : List Nat → List UInt8 → List (List UInt8)
  | [], _ => []
  | n :: r, octets => octets.take n :: groups r (octets.drop n)

def ofOctets (octets : List UInt8) : String :=
  "-".intercalate ((groups [4, 2, 2, 2, 6] (mark octets)).map fun g =>
    String.ofList (g.flatMap hex))

example : ofOctets (List.replicate 16 255) = "ffffffff-ffff-4fff-bfff-ffffffffffff" := by decide

end Rulebook.Identifier
