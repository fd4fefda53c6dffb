import Rulebook.Engine
import Rulebook.Settings.Path
import Rulebook.Settings.Variable
import Rulebook.Toml.Document

/-! Settings of the program: defaults, then three files, then the environment, key by key. -/

namespace Rulebook

structure Logging where
  level : String
  format : String
  deriving DecidableEq, Repr

namespace Logging

def default : Logging := ⟨"info", "pretty"⟩

def isJson (l : Logging) : Bool := l.format.toList.map Char.toLower == "json".toList

end Logging

structure Settings where
  serviceName : String
  environment : String
  engine : Engine
  logging : Logging
  deriving DecidableEq, Repr

namespace Settings

def fallback (service : String) : Settings := ⟨service, "", Engine.default, Logging.default⟩

def isProduction (s : Settings) : Bool := s.environment == "production"

/- Reading a section: its members by name, or the items of a list in the order of the fields. -/

/-- The setting of the field `k`, the `i`th of its section, under the key that faults name. -/
def field? (path k : String) (i : Nat) : Setting → Option (String × Setting)
  | .table es => (Entries.get? k es).map fun v => (path ++ "." ++ k, v)
  | .list vs => (vs[i]?).map fun v => (path ++ "[" ++ toString i ++ "]", v)
  | _ => none

def convert {α : Type} (f : Setting → Setting.Converted α) (standard : α) :
    Option (String × Setting) → Except SettingsFault α
  | none => .ok standard
  | some (key, v) => (f v).mapError fun (unexpected, wanted) => .kind key unexpected wanted

def isSection : Setting → Bool
  | .table _ | .list _ => true
  | _ => false

def readEngine (path : String) (v : Setting) : Except SettingsFault Engine := do
  let d := Engine.default
  if !isSection v then .error (.section path)
  let length ← convert Setting.toUnsigned d.maxRuleLength (field? path "max_rule_length" 0 v)
  let rules ← convert Setting.toUnsigned d.maxCombineRules (field? path "max_combine_rules" 1 v)
  let depth ← convert Setting.toUnsigned d.maxTreeDepth (field? path "max_tree_depth" 2 v)
  let tracing ← convert Setting.toBoolean d.tracing (field? path "trace_enabled" 3 v)
  return ⟨length, rules, depth, tracing⟩

def readLogging (path : String) (v : Setting) : Except SettingsFault Logging := do
  let d := Logging.default
  if !isSection v then .error (.section path)
  let level ← convert Setting.toText d.level (field? path "log_level" 0 v)
  let format ← convert Setting.toText d.format (field? path "log_format" 1 v)
  return ⟨level, format⟩

def rootField? (k : String) (es : Entries Setting) : Option (String × Setting) :=
  (Entries.get? k es).map fun v => (k, v)

def readSection {α : Type} (read : String → Setting → Except SettingsFault α) (standard : α) :
    Option (String × Setting) → Except SettingsFault α
  | none => .ok standard
  | some (k, v) => read k v

def ofEntries (es : Entries Setting) : Except SettingsFault Settings := do
  let service ← convert Setting.toText "" (rootField? "service_name" es)
  let environment ← convert Setting.toText "" (rootField? "environment" es)
  let engine ← readSection readEngine Engine.default (rootField? "engine" es)
  let logging ← readSection readLogging Logging.default (rootField? "observability" es)
  return ⟨service, environment, engine, logging⟩

/- Layers. -/

/-- A layer sets keys, which are paths, one after the other. -/
abbrev Layer := List (String × Setting)

def Layer.apply (layer : Layer) (root : Setting) : Setting :=
  layer.foldl (fun root (k, v) => setAt v (Path.ofKey k) root) root

def fileLayer (text : Option String) : Except SettingsFault Layer :=
  match text with
  | none => .ok []
  | some s =>
    match Toml.parse s with
    | some es => .ok es
    | none => .error .file

def variableLayer (vars : Variables) : Layer :=
  vars.filterMap fun (name, v) =>
    (variableKey? name).map fun k => (k, variableValue v)

/-- The file of a name in a directory, which may have its ending twice if it is not there with one.
A file of which nothing but the ending is left is never read. -/
def fileOf (directory : String → Option String) (name : String) : Option String :=
  match directory (name ++ ".toml") with
  | some s => if name = "" then none else some s
  | none => directory (name ++ ".toml.toml")

def names (service environment : String) : List String := ["default", environment, service]

def layers (directory : String → Option String) (service environment : String)
    (vars : Variables) : Except SettingsFault (List Layer) := do
  let files ← (names service environment).mapM fun name => fileLayer (fileOf directory name)
  return [("service_name", .text service), ("environment", .text environment)] ::
    files ++ [variableLayer vars]

def load (directory : String → Option String) (service environment : String)
    (vars : Variables) : Except SettingsFault Settings := do
  let layers ← layers directory service environment vars
  ofEntries (layers.foldl (fun root layer => Layer.apply layer root) (.table [])).members

def directoryOf (vars : Variables) : String :=
  (vars.lookup "CONFIG_DIR").getD "config"

def environmentOf (vars : Variables) : String :=
  (vars.lookup "RULE_ENV").getD "development"

def loadProcess (directories : String → String → Option String) (service : String)
    (vars : Variables) : Except SettingsFault Settings :=
  load (directories (directoryOf vars)) service (environmentOf vars) vars

end Settings
end Rulebook
