/-! Command line arguments: options and positions, with or without a subcommand. -/

namespace Rulebook

/-- What makes a line of arguments no command. Help and version are asked for, not mistaken. -/
inductive UsageFault where
  | help
  | version
  | nothingGiven
  | subcommandMissing
  | subcommandUnknown
  | argumentMissing
  | argumentUnknown
  | argumentRepeated
  | valueMissing
  | valueExtra
  deriving DecidableEq, Repr

def UsageFault.exitCode : UsageFault → Nat
  | .help | .version => 0
  | _ => 2

/-- An option, by its long name, which is also the key of its value. -/
structure OptionForm where
  long : String
  short : Option Char
  valued : Bool
  deriving DecidableEq, Repr

inductive Positions where
  | none
  | one
  | many
  deriving DecidableEq, Repr

structure CommandForm where
  options : List OptionForm
  positions : Positions
  subcommands : List String

/-- What has been read. An option that waits has its name, and its value as soon as that is read;
it is settled only when the next option or position comes, or at the end. -/
structure Scanned where
  values : List (String × String)
  flags : List String
  positions : List String
  waiting : Option (OptionForm × Option String)

namespace Scanned

def empty : Scanned := ⟨[], [], [], none⟩

def settle (s : Scanned) : Except UsageFault Scanned :=
  match s.waiting with
  | none => .ok s
  | some (_, none) => .error .valueMissing
  | some (o, some v) =>
    if (s.values.lookup o.long).isSome then .error .argumentRepeated
    else .ok ⟨s.values ++ [(o.long, v)], s.flags, s.positions, none⟩

def attach (s : Scanned) (o : OptionForm) (v : String) : Except UsageFault Scanned := do
  let s ← s.settle
  settle ⟨s.values, s.flags, s.positions, some (o, some v)⟩

def await (s : Scanned) (o : OptionForm) : Except UsageFault Scanned := do
  let s ← s.settle
  return ⟨s.values, s.flags, s.positions, some (o, none)⟩

def flag (s : Scanned) (o : OptionForm) : Except UsageFault Scanned := do
  let s ← s.settle
  if o.long = "help" then .error .help
  else if o.long = "version" then .error .version
  else if s.flags.contains o.long then .error .argumentRepeated
  else return ⟨s.values, s.flags ++ [o.long], s.positions, none⟩

def awaits (s : Scanned) : Bool :=
  match s.waiting with
  | some (_, none) => true
  | _ => false

def supply (s : Scanned) (v : String) : Scanned :=
  ⟨s.values, s.flags, s.positions, s.waiting.map fun (o, _) => (o, some v)⟩

end Scanned

namespace CommandForm

def common : List OptionForm := [⟨"help", some 'h', false⟩, ⟨"version", some 'V', false⟩]

def long? (form : CommandForm) (name : String) : Option OptionForm :=
  (form.options ++ common).find? fun o => o.long == name

def short? (form : CommandForm) (c : Char) : Option OptionForm :=
  (form.options ++ common).find? fun o => o.short == some c

def readLong (form : CommandForm) (s : Scanned) (cs : List Char) : Except UsageFault Scanned :=
  let name := cs.takeWhile (· != '=')
  let value? : Option String :=
    match cs.drop name.length with
    | [] => none
    | _ :: r => some (String.ofList r)
  match form.long? (String.ofList name), value? with
  | none, _ => .error .argumentUnknown
  | some o, some v => if o.valued then s.attach o v else .error .valueExtra
  | some o, none => if o.valued then s.await o else s.flag o

/-- Options by their letters. The rest of the letters is the value of the first one that has one,
also after an equals sign. -/
def readShort (form : CommandForm) (s : Scanned) : List Char → Except UsageFault Scanned
  | [] => .ok s
  | c :: r =>
    match form.short? c with
    | none => .error .argumentUnknown
    | some o =>
      if o.valued then
        match r with
        | [] => s.await o
        | '=' :: v => s.attach o (String.ofList v)
        | v => s.attach o (String.ofList v)
      else do
        let s ← s.flag o
        readShort form s r

def readPosition (form : CommandForm) (s : Scanned) (only : Bool) (arg : String) :
    Except UsageFault Scanned :=
  let free :=
    match form.positions with
    | .none => false
    | .one => s.positions.isEmpty
    | .many => true
  if free then do
    let s ← s.settle
    return ⟨s.values, s.flags, s.positions ++ [arg], none⟩
  else if form.subcommands.isEmpty then .error .argumentUnknown
  else if only && form.subcommands.contains arg then .error .argumentUnknown
  else .error .subcommandUnknown

/-- Reads arguments up to a subcommand or to the end. After two dashes only positions follow. -/
def scan (form : CommandForm) (s : Scanned) (only : Bool) :
    List String → Except UsageFault (Scanned × Option (String × List String))
  | [] => .ok (s, none)
  | arg :: args =>
    if only then do
      let s ← form.readPosition s true arg
      scan form s true args
    else if !s.awaits && s.positions.isEmpty && form.subcommands.contains arg then
      .ok (s, some (arg, args))
    else
      match arg.toList with
      | ['-', '-'] => scan form s true args
      | '-' :: '-' :: cs => do
        let s ← form.readLong s cs
        scan form s false args
      | '-' :: c :: cs => do
        let s ← form.readShort s (c :: cs)
        scan form s false args
      | _ =>
        if s.awaits then scan form (s.supply arg) false args
        else do
          let s ← form.readPosition s false arg
          scan form s false args

def scanAll (form : CommandForm) (args : List String) : Except UsageFault Scanned := do
  let (s, _) ← form.scan .empty false args
  s.settle

end CommandForm
end Rulebook
