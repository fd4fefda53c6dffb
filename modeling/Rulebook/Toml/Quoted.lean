import Rulebook.Json.Quoted

/-! Quoted texts of TOML: on one line or on many, with escapes or without. -/

namespace Rulebook.Toml

def isControl (c : Char) : Bool := (c.toNat < 32 && c != '\t') || c.toNat == 127

def hexChar? (cs : List Char) : Option Char := do
  let ds ← cs.mapM Quoted.hexValue?
  let n := ds.foldl (fun n d => 16 * n + d) 0
  if n < 0xD800 ∨ (0xDFFF < n ∧ n < 0x110000) then some (Char.ofNat n) else none

def escaped? : Char → Option Char
  | '"' => some '"'
  | '\\' => some '\\'
  | 'b' => some '\x08'
  | 'e' => some '\x1b'
  | 'f' => some '\x0c'
  | 'n' => some '\n'
  | 'r' => some '\r'
  | 't' => some '\t'
  | _ => none

abbrev Found := Option (List Char × List Char)

def Found.cons (c : Char) (f : Found) : Found := f.map fun (cs, r) => (c :: cs, r)

def Found.consSome (c : Option Char) (f : Found) : Found := c.bind fun c => Found.cons c f

def endsLine : List Char → Bool
  | ' ' :: r | '\t' :: r => endsLine r
  | '\n' :: _ => true
  | '\r' :: '\n' :: _ => true
  | _ => false

/-- A text with escapes. One on many lines ends with three quotes, and a backslash at the end of a
line drops the blanks up to the next character; `dropping` stands while it does. -/
def basic (lines dropping : Bool) : List Char → Found
  | [] => none
  | '\\' :: [] => none
  | '"' :: r =>
    if lines then
      match r with
      | '"' :: '"' :: r' =>
        if r'.head? = some '"' then Found.cons '"' (basic lines false r) else some ([], r')
      | _ => Found.cons '"' (basic lines false r)
    else some ([], r)
  | '\\' :: 'x' :: a :: b :: r => Found.consSome (hexChar? [a, b]) (basic lines false r)
  | '\\' :: 'u' :: a :: b :: c :: d :: r =>
    Found.consSome (hexChar? [a, b, c, d]) (basic lines false r)
  | '\\' :: 'U' :: a :: b :: c :: d :: e :: f :: g :: h :: r =>
    Found.consSome (hexChar? [a, b, c, d, e, f, g, h]) (basic lines false r)
  | '\\' :: c :: r =>
    if lines && endsLine (c :: r) then basic lines true (c :: r)
    else Found.consSome (escaped? c) (basic lines false r)
  | '\r' :: '\n' :: r =>
    if !lines then none
    else if dropping then basic lines true r
    else Found.cons '\n' (basic lines false r)
  | c :: r =>
    if dropping && (c == ' ' || c == '\t' || c == '\n') then basic lines true r
    else if isControl c && !(lines && c == '\n') then none
    else Found.cons c (basic lines false r)

def literal (lines : Bool) : List Char → Found
  | [] => none
  | '\'' :: r =>
    if lines then
      match r with
      | '\'' :: '\'' :: r' =>
        if r'.head? = some '\'' then Found.cons '\'' (literal lines r) else some ([], r')
      | _ => Found.cons '\'' (literal lines r)
    else some ([], r)
  | '\r' :: '\n' :: r => if lines then Found.cons '\n' (literal lines r) else none
  | c :: r =>
    if isControl c && !(lines && c == '\n') then none else Found.cons c (literal lines r)

def dropBreak : List Char → List Char
  | '\n' :: r => r
  | '\r' :: '\n' :: r => r
  | r => r

/-- The text that starts here, on one line only if `one` is set. -/
def quoted? (one : Bool) : List Char → Found
  | '"' :: '"' :: '"' :: r => if one then none else basic true false (dropBreak r)
  | '"' :: r => basic false false r
  | '\'' :: '\'' :: '\'' :: r => if one then none else literal true (dropBreak r)
  | '\'' :: r => literal false r
  | _ => none

end Rulebook.Toml
