import Rulebook.Decimal.Numeral
import Rulebook.Observation
import Rulebook.Text.Blank

/-! Log filters: directives such as `warn`, `rule_engine=debug` or `[parse]=trace`, of which the
most specific one that concerns an event decides whether it is shown. -/

namespace Rulebook

structure FieldPattern where
  name : String
  value : Option String
  deriving DecidableEq, Repr

/-- How much detail is shown: nothing for zero, everything for five. -/
structure Directive where
  target : Option String
  span : Option String
  fields : List FieldPattern
  detail : Nat
  deriving DecidableEq, Repr

namespace Directive

def detailNames : List (String × Nat) :=
  [("off", 0), ("error", 1), ("warn", 2), ("info", 3), ("debug", 4), ("trace", 5)]

def detail? (cs : List Char) : Option Nat :=
  let word := String.ofList (cs.map Char.toLower)
  let digits :=
    match cs with
    | '+' :: r => r
    | r => r
  if digits ≠ [] ∧ digits.all Numeral.isDigit then
    let n := Decimal.ofDigitChars digits
    if n ≤ 5 then some n else none
  else if cs = [] then some 1
  else detailNames.lookup word

def detailName (n : Nat) : String :=
  match detailNames.find? fun (_, m) => m == n with
  | some (name, _) => name
  | none => "trace"

def empty : Directive := ⟨none, none, [], 5⟩

def fieldPattern (cs : List Char) : FieldPattern :=
  let name := cs.takeWhile (· != '=')
  match cs.drop name.length with
  | [] => ⟨String.ofList name, none⟩
  | _ :: r => ⟨String.ofList name, some (String.ofList (r.takeWhile (· != '=')))⟩

inductive Stage where
  | span (start : Nat)
  | field (start : Nat)
  | fields
  | closed
  | level (start : Nat)

/-- Reads a directive from the character at `i` on. Parts are cut out of `whole`. -/
def readFrom (whole : List Char) (d : Directive) (stage : Stage) (i : Nat) :
    List Char → Option Directive
  | [] =>
    match stage with
    | .level start =>
      match whole.drop start with
      | [] => some d
      | cs => (detail? cs).map fun n => { d with detail := n }
    | .closed => some d
    | _ => none
  | c :: r =>
    let part (start : Nat) : List Char := (whole.drop start).take (i - start)
    match stage with
    | .span start =>
      if c = ']' then
        readFrom whole { d with span := some (String.ofList (part start)) } .closed (i + 1) r
      else if c = '{' then
        let span := if part start = [] then none else some (String.ofList (part start))
        readFrom whole { d with span := span } (.field (i + 1)) (i + 1) r
      else readFrom whole d stage (i + 1) r
    | .field start =>
      if c = '}' then
        if part start = [] then none
        else
          readFrom whole { d with fields := d.fields ++ [fieldPattern (part start)] } .fields
            (i + 1) r
      else readFrom whole d stage (i + 1) r
    | .fields => if c = ']' then readFrom whole d .closed (i + 1) r else none
    | .closed => if c = '=' then readFrom whole d (.level (i + 1)) (i + 1) r else none
    -- The level is all that is left of the text.
    | .level _ => readFrom whole d stage (i + 1) r

def isMark (c : Char) : Bool := c == '-' || c == ':' || c == '_'

def isWordChar (c : Char) : Bool :=
  c.isAlphanum || (127 < c.toNat && !Text.isBlank c)

/-- Reads a directive. Without a level after an equals sign, the text is a level or a target. -/
def read? (whole : List Char) : Option Directive :=
  let cs := Text.trim whole
  match cs with
  | [] => none
  | '[' :: r => readFrom whole empty (.span 1) 1 r
  | c :: _ =>
    if !isMark c && !isWordChar c then none
    else
      let head := cs.takeWhile fun c => c != '=' && c != '['
      let name := some (String.ofList (whole.take head.length))
      match cs.drop head.length with
      | '=' :: r =>
        readFrom whole { empty with target := name } (.level (head.length + 1)) (head.length + 1) r
      | '[' :: r =>
        readFrom whole { empty with target := name } (.span (head.length + 1)) (head.length + 1) r
      | _ =>
        match detail? whole with
        | some n => some { empty with detail := n }
        | none => some { empty with target := some (String.ofList whole) }

def isDynamic (d : Directive) : Bool := d.span.isSome || !d.fields.isEmpty

def isStatic (d : Directive) : Bool := d.span.isNone && d.fields.all fun f => f.value.isNone

def compareOptions (a b : Option String) : Ordering :=
  match a, b with
  | none, none => .eq
  | none, some _ => .lt
  | some _, none => .gt
  | some s, some t => compare s t

def compareFields : List FieldPattern → List FieldPattern → Ordering
  | [], [] => .eq
  | [], _ :: _ => .lt
  | _ :: _, [] => .gt
  | f :: fs, g :: gs =>
    (compare f.value.isSome.toNat g.value.isSome.toNat).then
      ((compare f.name g.name).then
        ((compareOptions f.value g.value).then (compareFields fs gs)))

/-- The order of specificity, which ends in an order of names. -/
def compareSpecific (a b : Directive) : Ordering :=
  let length (d : Directive) : Nat := (d.target.map fun s => s.utf8ByteSize + 1).getD 0
  (compare (length a) (length b)).then
    ((compare a.span.isSome.toNat b.span.isSome.toNat).then
      ((compare a.fields.length b.fields.length).then
        ((compareOptions a.target b.target).then
          ((compareOptions a.span b.span).then (compareFields a.fields b.fields)))))

/-- Puts a directive before those that are less specific. It replaces its equal. -/
def insert (d : Directive) : List Directive → List Directive
  | [] => [d]
  | e :: r =>
    match compareSpecific d e with
    | .gt => d :: e :: r
    | .eq => d :: r
    | .lt => e :: insert d r

def fieldText (f : FieldPattern) : String :=
  f.name ++
    match f.value with
    | some v => "=" ++ v
    | none => ""

def render (d : Directive) : String :=
  let fields :=
    if d.fields.isEmpty then ""
    else "\x7b" ++ ",".intercalate (d.fields.map fieldText) ++ "\x7d"
  let scope :=
    if d.isDynamic then "[" ++ d.span.getD "" ++ fields ++ "]" else ""
  let head := d.target.getD "" ++ scope
  (if d.target.isSome || d.isDynamic then head ++ "=" else "") ++ detailName d.detail

end Directive

structure LogFilter where
  statics : List Directive
  dynamics : List Directive
  deriving DecidableEq, Repr

namespace LogFilter

def ofDirectives (ds : List Directive) : LogFilter :=
  let dynamics := ds.filter Directive.isDynamic
  let statics :=
    (ds.filter fun d => !d.isDynamic) ++ dynamics.filter Directive.isStatic
  ⟨statics.foldl (fun r d => Directive.insert d r) [],
    dynamics.foldl (fun r d => Directive.insert d r) []⟩

def commaParts : List Char → List (List Char)
  | [] => [[]]
  | c :: r =>
    if c = ',' then [] :: commaParts r
    else
      match commaParts r with
      | p :: ps => (c :: p) :: ps
      | [] => [[c]]

def read? (s : String) : Option LogFilter :=
  (((commaParts s.toList).filter (· ≠ [])).mapM Directive.read?).map ofDirectives

def standard : LogFilter := ofDirectives [⟨none, none, [], 3⟩]

def choose (override : Option String) (level : String) : LogFilter :=
  match override.bind read? with
  | some f => f
  | none => (read? level).getD standard

def render (f : LogFilter) : String :=
  ",".intercalate ((f.statics ++ f.dynamics).map Directive.render)

def concernsTarget (d : Directive) (target : String) : Bool :=
  match d.target with
  | some t => t.toList.isPrefixOf target.toList
  | none => true

def hasFields (d : Directive) (names : List String) : Bool :=
  d.fields.all fun f => names.contains f.name

def allows (f : LogFilter) (detail : Nat) (target : String) (fields : Option LogFields) : Bool :=
  let concerns (d : Directive) : Bool :=
    concernsTarget d target &&
      match fields with
      | some fs => hasFields d (fs.map Prod.fst)
      | none => true
  match f.statics.find? concerns with
  | some d => detail ≤ d.detail
  | none => false

def spanDetail? (f : LogFilter) (target : String) (span : Span) : Option Nat :=
  let matching :=
    f.dynamics.filter fun d =>
      concernsTarget d target && d.span.all (· == span.name) &&
        d.fields.all fun p =>
          span.fields.any fun (k, v) => k == p.name && p.value.all (· == v)
  (matching.map Directive.detail).max?

def showsSpan (f : LogFilter) (target : String) (span : Span) : Bool :=
  (f.spanDetail? target span).isSome || f.allows Level.info.detail target none

def showsEvent (f : LogFilter) (inside : Option Nat) (e : Event) : Bool :=
  inside.any (fun n => e.level.detail ≤ n) ||
    f.allows e.level.detail e.target (some (("message", "") :: e.fields))

end LogFilter
end Rulebook
