import Rulebook.Command.Arguments

/-! The command line of the program. -/

namespace Rulebook

inductive Command where
  | parse (rule : String)
  | combine (symbol : String) (rules : List String)
  | evaluate (tree data : String) (tracing : Bool)
  | check (rule data : String) (tracing : Bool)
  deriving DecidableEq, Repr

structure CommandLine where
  logLevel : Option String
  command : Command
  deriving DecidableEq, Repr

namespace CommandLine

def names : List String := ["parse", "combine", "evaluate", "check"]

def rootForm : CommandForm := ⟨[⟨"log-level", some 'l', true⟩], .none, names ++ ["help"]⟩

def parseForm : CommandForm := ⟨[], .one, []⟩

def combineForm : CommandForm := ⟨[⟨"operator", some 'o', true⟩], .many, []⟩

def evaluateForm : CommandForm :=
  ⟨[⟨"ast", none, true⟩, ⟨"data", none, true⟩, ⟨"trace", none, false⟩], .none, []⟩

def checkForm : CommandForm :=
  ⟨[⟨"rule", none, true⟩, ⟨"data", none, true⟩, ⟨"trace", none, false⟩], .none, []⟩

def required {α : Type} (a : Option α) : Except UsageFault α :=
  match a with
  | some a => .ok a
  | none => .error .argumentMissing

def readParse (args : List String) : Except UsageFault Command := do
  let s ← parseForm.scanAll args
  let rule ← required s.positions.head?
  return .parse rule

def readCombine (args : List String) : Except UsageFault Command := do
  let s ← combineForm.scanAll args
  if s.positions.isEmpty then .error .argumentMissing
  else return .combine ((s.values.lookup "operator").getD "AND") s.positions

def readEvaluate (args : List String) : Except UsageFault Command := do
  let s ← evaluateForm.scanAll args
  let tree ← required (s.values.lookup "ast")
  let data ← required (s.values.lookup "data")
  return .evaluate tree data (s.flags.contains "trace")

def readCheck (args : List String) : Except UsageFault Command := do
  let s ← checkForm.scanAll args
  let rule ← required (s.values.lookup "rule")
  let data ← required (s.values.lookup "data")
  return .check rule data (s.flags.contains "trace")

def readHelp (args : List String) : UsageFault :=
  match args with
  | [] => .help
  | [name] => if rootForm.subcommands.contains name then .help else .subcommandUnknown
  | _ => .subcommandUnknown

def readCommand (name : String) (args : List String) : Except UsageFault Command :=
  match name with
  | "parse" => readParse args
  | "combine" => readCombine args
  | "evaluate" => readEvaluate args
  | "check" => readCheck args
  | _ => .error (readHelp args)

/-- Reads a line of arguments. Faults of the subcommand come before those of its surroundings. -/
def read (args : List String) : Except UsageFault CommandLine := do
  let (s, rest) ← rootForm.scan .empty false args
  match rest with
  | some (name, args) =>
    let command ← readCommand name args
    let s ← s.settle
    return ⟨s.values.lookup "log-level", command⟩
  | none =>
    let s ← s.settle
    if s.values.isEmpty then .error .nothingGiven else .error .subcommandMissing

end CommandLine
end Rulebook
