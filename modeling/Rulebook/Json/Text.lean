import Rulebook.Json.Document

/-! Reading JSON texts: a text becomes a document, and a reader takes what it wants from it. -/

namespace Rulebook

structure JsonText where
  root : Document
  trailing : Bool

namespace JsonText

def isSpace (c : Char) : Bool := c == ' ' || c == '\t' || c == '\n' || c == '\r'

def skipSpace (cs : List Char) : List Char := cs.dropWhile isSpace

def word (rest : List Char) (d : Document) : List Char → Document × Option (List Char)
  | [] => (d, some rest)
  | c :: cs =>
    match rest with
    | [] => (.broken .ended .ended, none)
    | c' :: rest => if c = c' then word rest d cs else (.broken .malformed .malformed, none)

def unexpected : List Char → JsonFault
  | [] => .ended
  | _ :: _ => .malformed

def number (cs : List Char) : Document × Option (List Char) :=
  match NumberText.scan cs with
  | .found n rest => (.number n.read, some rest)
  | .broken f g => (.broken f g, none)

def quoted (cs : List Char) : Document × Option (List Char) :=
  match Quoted.scan cs with
  | .found s rest => (.text s, some rest)
  | .broken f g => (.broken f g, none)

mutual

/-- The document at the start of a text and what follows it, unless the text breaks off.
Twice the length of the text is fuel enough: a level takes one unit, and so does a character. -/
def value : Nat → List Char → Document × Option (List Char)
  | 0, _ => (.broken .ended .ended, none)
  | fuel + 1, cs =>
    match skipSpace cs with
    | [] => (.broken .ended .ended, none)
    | '"' :: r => quoted r
    | '[' :: r =>
      match skipSpace r with
      | [] => (.array (.done (some .ended)), none)
      | ']' :: r => (.array (.done none), some r)
      | _ =>
        let (is, rest) := items fuel r
        (.array is, rest)
    | '{' :: r =>
      match skipSpace r with
      | '}' :: r => (.object (.done none), some r)
      | _ =>
        let (ms, rest) := members fuel r
        (.object ms, rest)
    | 'n' :: r => word r .null "ull".toList
    | 't' :: r => word r (.boolean true) "rue".toList
    | 'f' :: r => word r (.boolean false) "alse".toList
    | c :: r =>
      if c = '-' ∨ Numeral.isDigit c then number (c :: r)
      else (.broken .malformed .malformed, none)

def items : Nat → List Char → Items × Option (List Char)
  | 0, _ => (.done (some .ended), none)
  | fuel + 1, cs =>
    match value fuel cs with
    | (d, none) => (.item d (.done none), none)
    | (d, some r) =>
      match skipSpace r with
      | ',' :: r =>
        let (is, rest) := items fuel r
        (.item d is, rest)
      | ']' :: r => (.item d (.done none), some r)
      | r => (.item d (.done (some (unexpected r))), none)

def members : Nat → List Char → Members × Option (List Char)
  | 0, _ => (.done (some .ended), none)
  | fuel + 1, cs =>
    match skipSpace cs with
    | '"' :: r =>
      match Quoted.scan r with
      | .broken f g => (.member (.error f) (.broken f g) (.done none), none)
      | .found key r =>
        match skipSpace r with
        | ':' :: r =>
          match value fuel r with
          | (d, none) => (.member key d (.done none), none)
          | (d, some r) =>
            match skipSpace r with
            | ',' :: r =>
              let (ms, rest) := members fuel r
              (.member key d ms, rest)
            | '}' :: r => (.member key d (.done none), some r)
            | r => (.member key d (.done (some (unexpected r))), none)
        | r => (.member key (.broken (unexpected r) (unexpected r)) (.done none), none)
    | r => (.done (some (unexpected r)), none)

end

def ofChars (cs : List Char) : JsonText :=
  match value (2 * cs.length + 2) cs with
  | (d, none) => ⟨d, false⟩
  | (d, some rest) => ⟨d, !(skipSpace rest).isEmpty⟩

def ofString (s : String) : JsonText := ofChars s.toList

/-- Reads the whole text. What the reader finds comes before what follows the document. -/
def read {α : Type} (t : JsonText) (reader : Document → Except JsonFault α) :
    Except JsonFault α := do
  let a ← reader t.root
  if t.trailing then .error .malformed else return a

end JsonText

def Json.parse (s : String) : Except JsonFault Json :=
  (JsonText.ofString s).read (Json.ofDocument Document.textRoom)

end Rulebook
