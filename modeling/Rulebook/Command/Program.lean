import Rulebook.Command.Log
import Rulebook.Command.Run
import Rulebook.Command.Usage
import Rulebook.LogFilter
import Rulebook.Settings

/-! The program: from arguments, files and variables to output, messages and an exit code. -/

namespace Rulebook

structure Outcome where
  usage : Option UsageFault
  fallback : Option SettingsFault
  json : Bool
  log : List LogLine
  answer : Option (Except Failure Json)

namespace Outcome

def exitCode (o : Outcome) : Nat :=
  match o.usage, o.answer with
  | some f, _ => f.exitCode
  | none, some (.error _) => 1
  | none, _ => 0

def lines : List Char → List (List Char)
  | [] => [[]]
  | c :: r =>
    if c = '\n' then [] :: lines r
    else
      match lines r with
      | l :: ls => (c :: l) :: ls
      | [] => [[c]]

def linesOf (s : String) : List String := (lines s.toList).map String.ofList

def messageLines (f : Failure) : List String :=
  match f.context with
  | none => linesOf ("Error: " ++ f.fault.message)
  | some context =>
    linesOf ("Error: " ++ context) ++ ["", "Caused by:"] ++
      (linesOf f.fault.message).map fun l => "    " ++ l

end Outcome

namespace Program

def serviceName : String := "rule-engine"

/-- What the program finds around it: files by directory and name, and environment variables. -/
structure World where
  file : String → String → Option String
  vars : Variables

def showEvents (filter : LogFilter) (inside : Option Nat) (events : List Event) : List LogLine :=
  (events.filter (filter.showsEvent inside)).map fun e => ⟨e.level, e.target, e.message, e.fields⟩

def showSpan (filter : LogFilter) (json : Bool) (span : Span) : List LogLine :=
  showEvents filter (filter.spanDetail? Engine.target span) span.events ++
    if json && filter.showsSpan Engine.target span then
      [⟨.info, Engine.target, "close", span.fields⟩]
    else []

def opening (s : Settings) : List Event :=
  [⟨.info, "rule_shared::observability::tracing", "Observability initialized",
      [("service", s.serviceName), ("log_level", s.logging.level),
        ("log_format", s.logging.format)]⟩,
    ⟨.info, "rule_engine", "Starting rule-engine command",
      [("environment", s.environment), ("max_rule_length", toString s.engine.maxRuleLength)]⟩]

/-- Runs the program. Settings that cannot be loaded are replaced by the standard ones. -/
def run (w : World) (around : Surroundings) (args : List String) : Outcome :=
  match CommandLine.read args with
  | .error f => ⟨some f, none, false, [], none⟩
  | .ok line =>
    let loaded := Settings.loadProcess w.file serviceName w.vars
    let (settings, fallback) :=
      match loaded with
      | .ok s => (s, none)
      | .error f => (Settings.fallback serviceName, some f)
    let settings : Settings :=
      match line.logLevel with
      | some level => { settings with logging := { settings.logging with level := level } }
      | none => settings
    let filter := LogFilter.choose (w.vars.lookup "RUST_LOG") settings.logging.level
    let json := settings.logging.isJson
    let report := line.command.run settings.engine around
    let log :=
      showEvents filter none (opening settings) ++
        report.spans.flatMap (showSpan filter json)
    ⟨none, fallback, json, log, some report.answer⟩

end Program
end Rulebook
