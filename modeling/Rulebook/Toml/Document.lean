import Rulebook.Toml.Quoted
import Rulebook.Toml.Scalar

/-! Documents of TOML: the statements of a text, and the tables that they define. -/

namespace Rulebook.Toml

/-- How a table came to be, which settles who may still add to it. -/
inductive Origin where
  | implied
  | header
  | dotted
  deriving DecidableEq

inductive Node where
  | leaf (v : Setting)
  | table (origin : Origin) (members : List (String × Node))
  | tables (earlier : List (List (String × Node))) (last : List (String × Node))

namespace Node

mutual

def toSetting : Node → Setting
  | .leaf v => v
  | .table _ es => .table (settings es)
  | .tables earlier last => .list (settingTables earlier ++ [.table (settings last)])

def settings : List (String × Node) → List (String × Setting)
  | [] => []
  | (k, v) :: r => (k, v.toSetting) :: settings r

def settingTables : List (List (String × Node)) → List Setting
  | [] => []
  | es :: r => .table (settings es) :: settingTables r

end

/-- Changes the table at a path, and implies those on the way. -/
def descend (change : Entries Node → Option (Entries Node)) :
    List String → Entries Node → Option (Entries Node)
  | [], es => change es
  | k :: path, es =>
    match Entries.get? k es with
    | none => (descend change path []).map fun sub => Entries.insert k (.table .implied sub) es
    | some (.table origin sub) =>
      (descend change path sub).map fun sub => Entries.insert k (.table origin sub) es
    -- The last table of a list is the one that is open.
    | some (.tables earlier last) =>
      (descend change path last).map fun last => Entries.insert k (.tables earlier last) es
    | some (.leaf _) => none

def openTable (k : String) (es : Entries Node) : Option (Entries Node) :=
  match Entries.get? k es with
  | none => some (Entries.insert k (.table .header []) es)
  | some (.table .implied sub) => some (Entries.insert k (.table .header sub) es)
  | some _ => none

def openItem (k : String) (es : Entries Node) : Option (Entries Node) :=
  match Entries.get? k es with
  | none => some (Entries.insert k (.tables [] []) es)
  | some (.tables earlier last) => some (Entries.insert k (.tables (earlier ++ [last]) []) es)
  | some _ => none

/-- Defines a key once. A dotted key adds to tables that have no header. -/
def assign (v : Setting) : List String → Entries Node → Option (Entries Node)
  | [], _ => none
  | [k], es =>
    match Entries.get? k es with
    | none => some (Entries.insert k (.leaf v) es)
    | some _ => none
  | k :: path, es =>
    match Entries.get? k es with
    | none => (assign v path []).map fun sub => Entries.insert k (.table .dotted sub) es
    | some (.table .header _) => none
    | some (.table origin sub) =>
      (assign v path sub).map fun sub => Entries.insert k (.table origin sub) es
    | some _ => none

end Node

inductive Statement where
  | table (path : List String)
  | item (path : List String)
  | value (path : List String) (v : Setting)

def isBlank (c : Char) : Bool := c == ' ' || c == '\t'

def skipBlanks (cs : List Char) : List Char := cs.dropWhile isBlank

def lineEnd? (cs : List Char) : Option (List Char) :=
  let body := skipBlanks cs
  let rest :=
    match body with
    | '#' :: r => r.dropWhile fun c => !isControl c
    | r => r
  match rest with
  | [] => some []
  | '\n' :: r => some r
  | '\r' :: '\n' :: r => some r
  | _ => none

def skipLines : Nat → List Char → Option (List Char)
  | 0, cs => some cs
  | fuel + 1, cs =>
    match skipBlanks cs with
    | '#' :: r => (lineEnd? ('#' :: r)).bind (skipLines fuel)
    | '\n' :: r => skipLines fuel r
    | '\r' :: '\n' :: r => skipLines fuel r
    | r => some r

def isBare (c : Char) : Bool :=
  Numeral.isDigit c || ('a' ≤ c && c ≤ 'z') || ('A' ≤ c && c ≤ 'Z') || c == '_' || c == '-'

def key? (cs : List Char) : Option (String × List Char) :=
  let bare := cs.takeWhile isBare
  if bare ≠ [] then some (String.ofList bare, cs.drop bare.length)
  else (quoted? true cs).map fun (k, r) => (String.ofList k, r)

def path? : Nat → List Char → Option (List String × List Char)
  | 0, _ => none
  | fuel + 1, cs => do
    let (k, r) ← key? (skipBlanks cs)
    match skipBlanks r with
    | '.' :: r => do
      let (ks, r) ← path? fuel r
      some (k :: ks, r)
    | r => some ([k], r)

def isScalarChar (c : Char) : Bool := isBare c || c == '+' || c == '.' || c == ':'

/-- A word without quotes. A time may follow a date after one space. -/
def scalarText (cs : List Char) : List Char × List Char :=
  let first := cs.takeWhile isScalarChar
  let rest := cs.drop first.length
  match rest with
  | ' ' :: c :: r =>
    if (date? first).any (fun (_, r) => r.isEmpty) && Numeral.isDigit c then
      let second := (c :: r).takeWhile isScalarChar
      (first ++ ' ' :: second, (c :: r).drop second.length)
    else (first, rest)
  | _ => (first, rest)

mutual

def value? : Nat → List Char → Option (Setting × List Char)
  | 0, _ => none
  | fuel + 1, cs =>
    match cs with
    | '"' :: _ | '\'' :: _ =>
      (quoted? false cs).map fun (s, r) => (.text (String.ofList s), r)
    | '[' :: r => (items? fuel r).map fun (vs, r) => (.list vs, r)
    | '{' :: r => (inline? fuel [] r).map fun (es, r) => (.table (Node.settings es), r)
    | _ =>
      let (word, r) := scalarText cs
      (scalar? word).map fun v => (v, r)

def items? : Nat → List Char → Option (List Setting × List Char)
  | 0, _ => none
  | fuel + 1, cs => do
    let r ← skipLines cs.length cs
    match r with
    | ']' :: r => some ([], r)
    | r => do
      let (v, r) ← value? fuel r
      let r ← skipLines r.length r
      match r with
      | ',' :: r => do
        let (vs, r) ← items? fuel r
        some (v :: vs, r)
      | ']' :: r => some ([v], r)
      | _ => none

def inline? : Nat → Entries Node → List Char → Option (Entries Node × List Char)
  | 0, _, _ => none
  | fuel + 1, es, cs => do
    let r ← skipLines cs.length cs
    match r with
    | '}' :: r => some (es, r)
    | r => do
      let (path, r) ← path? r.length r
      match r with
      | '=' :: r => do
        let (v, r) ← value? fuel (skipBlanks r)
        let es ← Node.assign v path es
        let r ← skipLines r.length r
        match r with
        | ',' :: r => inline? fuel es r
        | '}' :: r => some (es, r)
        | _ => none
      | _ => none

end

def statement? (cs : List Char) : Option (Statement × List Char) :=
  match cs with
  | '[' :: '[' :: r => do
    let (path, r) ← path? r.length r
    match r with
    | ']' :: ']' :: r => some (.item path, r)
    | _ => none
  | '[' :: r => do
    let (path, r) ← path? r.length r
    match r with
    | ']' :: r => some (.table path, r)
    | _ => none
  | cs => do
    let (path, r) ← path? cs.length cs
    match r with
    | '=' :: r => do
      let (v, r) ← value? (r.length + 1) (skipBlanks r)
      some (.value path v, r)
    | _ => none

def statements? : Nat → List Char → Option (List Statement)
  | 0, _ => some []
  | fuel + 1, cs => do
    let r ← skipLines cs.length cs
    if r = [] then some []
    else do
      let (s, r) ← statement? r
      let r ← lineEnd? r
      let ss ← statements? fuel r
      some (s :: ss)

/-- Runs statements; the values go into the table `current`, which a header changes. -/
def define (root : Entries Node) (current : List String) :
    List Statement → Option (Entries Node)
  | [] => some root
  | .table path :: ss => do
    let last ← path.getLast?
    let root ← Node.descend (Node.openTable last) path.dropLast root
    define root path ss
  | .item path :: ss => do
    let last ← path.getLast?
    let root ← Node.descend (Node.openItem last) path.dropLast root
    define root path ss
  | .value path v :: ss => do
    let root ← Node.descend (Node.assign v path) current root
    define root current ss

def parse (s : String) : Option (Entries Setting) := do
  let cs :=
    match s.toList with
    | '\uFEFF' :: r => r
    | r => r
  let ss ← statements? (cs.length + 1) cs
  let root ← define [] [] ss
  some (Node.settings root)

end Rulebook.Toml
