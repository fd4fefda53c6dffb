import Std.Time.Format
import Rulebook.Command.Program
import Rulebook.Identifier

/-! The program as it runs: arguments, files and variables come from the machine, answers go to its
output, and messages with the log to its error output. -/

namespace Rulebook.Program

def splitVariables (octets : List UInt8) : List (List UInt8) :=
  match octets with
  | [] => [[]]
  | b :: r =>
    if b = 0 then [] :: splitVariables r
    else
      match splitVariables r with
      | v :: vs => (b :: v) :: vs
      | [] => [[b]]

def variableOf? (octets : List UInt8) : Option (String × String) := do
  let s ← String.fromUTF8? ⟨octets.toArray⟩
  let name := s.toList.takeWhile (· != '=')
  if name = [] then none
  else return (String.ofList name, String.ofList (s.toList.drop (name.length + 1)))

def readVariables : IO Variables := do
  let octets ← IO.FS.readBinFile "/proc/self/environ"
  return (splitVariables octets.toList).filterMap variableOf?

def readFile? (path : String) : IO (Option String) := do
  try
    return some (← IO.FS.readFile path)
  catch _ => return none

def readFiles (vars : Variables) : IO (List (String × String)) := do
  let directory := Settings.directoryOf vars
  let names := Settings.names serviceName (Settings.environmentOf vars)
  let mut files := []
  for name in names.flatMap fun name => [name ++ ".toml", name ++ ".toml.toml"] do
    match ← readFile? (directory ++ "/" ++ name) with
    | some s => files := files ++ [(name, s)]
    | none => pure ()
  return files

def readWorld : IO World := do
  let vars ← readVariables
  let files ← readFiles vars
  return ⟨fun _ name => files.lookup name, vars⟩

def readTime : IO Timestamp := do
  let now ← Std.Time.Timestamp.now
  return .ofUnix now.val.second.val.toNat now.val.nano.val.toNat

def print (o : Outcome) (time : String) : IO Unit := do
  match o.usage with
  | some f => if f.exitCode = 0 then IO.println f.message else IO.eprintln f.message
  | none => pure ()
  match o.fallback with
  | some f => IO.eprintln ("Failed to load config, using defaults: " ++ f.message)
  | none => pure ()
  for l in o.log do
    IO.eprintln (l.render o.json time)
  match o.answer with
  | some (.ok v) => IO.println v.renderLines
  | some (.error f) => for l in Outcome.messageLines f do IO.eprintln l
  | none => pure ()

end Rulebook.Program

open Rulebook Program in
/-- Runs the program twice, since only then it is known how long an evaluation takes. -/
def main (args : List String) : IO UInt32 := do
  let world ← readWorld
  let now ← readTime
  let id := Identifier.ofOctets (← IO.getRandomBytes 16).toList
  let start ← IO.monoNanosNow
  let first ← IO.lazyPure fun _ => (run world ⟨id, now, 0⟩ args).exitCode
  let stop ← IO.monoNanosNow
  print (run world ⟨id, now, (stop - start) / 1000⟩ args) now.render
  return first.toUInt32
