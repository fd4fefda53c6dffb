import Rulebook.Json.Number

/-! Quoted texts of JSON: how they are written, scanned and read. -/

namespace Rulebook.Quoted

def hexDigit (n : Nat) : Char := (Nat.toDigits 16 (n % 16)).headD '0'

def escape (c : Char) : List Char :=
  if c = '"' then ['\\', '"']
  else if c = '\\' then ['\\', '\\']
  else if c = '\x08' then ['\\', 'b']
  else if c = '\x0c' then ['\\', 'f']
  else if c = '\n' then ['\\', 'n']
  else if c = '\r' then ['\\', 'r']
  else if c = '\t' then ['\\', 't']
  else if c.toNat < 32 then
    ['\\', 'u', '0', '0', hexDigit (c.toNat / 16), hexDigit c.toNat]
  else [c]

def write (s : String) : List Char := '"' :: s.toList.flatMap escape ++ ['"']

inductive Piece where
  | char (c : Char)
  | unit (n : Nat)
  deriving DecidableEq

def escaped? : Char → Option Char
  | '"' => some '"'
  | '\\' => some '\\'
  | '/' => some '/'
  | 'b' => some '\x08'
  | 'f' => some '\x0c'
  | 'n' => some '\n'
  | 'r' => some '\r'
  | 't' => some '\t'
  | _ => none

def hexValue? (c : Char) : Option Nat :=
  if '0' ≤ c ∧ c ≤ '9' then some (c.toNat - 48)
  else if 'a' ≤ c ∧ c ≤ 'f' then some (c.toNat - 87)
  else if 'A' ≤ c ∧ c ≤ 'F' then some (c.toNat - 55)
  else none

def byteCount (cs : List Char) : Nat := (String.ofList cs).utf8ByteSize

/-- The value of four hexadecimal digits. The text has ended if it holds less than four bytes. -/
def unit? (cs : List Char) : Except JsonFault Nat :=
  if byteCount (cs.take 4) < 4 then .error .ended
  else
    match cs with
    | a :: b :: c :: d :: _ =>
      match hexValue? a, hexValue? b, hexValue? c, hexValue? d with
      | some a, some b, some c, some d => .ok (((a * 16 + b) * 16 + c) * 16 + d)
      | _, _, _, _ => .error .malformed
    | _ => .error .malformed

def pieces : List Char → List Piece × Except JsonFault (List Char)
  | [] => ([], .error .ended)
  | '"' :: r => ([], .ok r)
  | '\\' :: [] => ([], .error .ended)
  | '\\' :: 'u' :: r =>
    match unit? r with
    | .error f => ([], .error f)
    | .ok n =>
      match r with
      | _ :: _ :: _ :: _ :: r' =>
        let (ps, rest) := pieces r'
        (.unit n :: ps, rest)
      | _ => ([], .error .ended)
  | '\\' :: c :: r =>
    match escaped? c with
    | some e =>
      let (ps, rest) := pieces r
      (.char e :: ps, rest)
    | none => ([], .error .malformed)
  | c :: r =>
    if c.toNat < 32 then ([], .error .malformed)
    else
      let (ps, rest) := pieces r
      (.char c :: ps, rest)

/-- The text of pieces. A high unit needs a low one after it, and a low one a high one before.
`stop` is the fault that follows the pieces, if one does. -/
def text (stop : Option JsonFault) : List Piece → Except JsonFault (List Char)
  | [] =>
    match stop with
    | none => .ok []
    | some f => .error f
  | .char c :: ps => (text stop ps).map (c :: ·)
  | .unit n :: ps =>
    if n < 0xD800 ∨ 0xDFFF < n then (text stop ps).map (Char.ofNat n :: ·)
    else if 0xDC00 ≤ n then .error .malformed
    else
      match ps with
      | .unit m :: ps =>
        if 0xDC00 ≤ m ∧ m ≤ 0xDFFF then
          (text stop ps).map (Char.ofNat (0x10000 + (n - 0xD800) * 0x400 + (m - 0xDC00)) :: ·)
        else .error .malformed
      | .char _ :: _ => .error .malformed
      | [] => .error (stop.getD .malformed)

/-- Scans what follows an opening quote. A text with an unpaired unit is found, but not readable. -/
def scan (cs : List Char) : Scan (Except JsonFault String) :=
  match pieces cs with
  | (ps, .ok rest) => .found ((text none ps).map String.ofList) rest
  | (ps, .error f) =>
    match text (some f) ps with
    | .error g => .broken g f
    | .ok _ => .broken f f

end Rulebook.Quoted
