import Rulebook.Proofs.Outcome
import Rulebook.Proofs.Setting
import Rulebook.Settings

/-! The settings that the program knows: the key of each, and what it is read as. -/

namespace Rulebook.Settings

inductive Key where
  | serviceName
  | environment
  | maxRuleLength
  | maxCombineRules
  | maxTreeDepth
  | tracing
  | logLevel
  | logFormat
  deriving DecidableEq, Repr

namespace Key

def path : Key → List String
  | serviceName => ["service_name"]
  | environment => ["environment"]
  | maxRuleLength => ["engine", "max_rule_length"]
  | maxCombineRules => ["engine", "max_combine_rules"]
  | maxTreeDepth => ["engine", "max_tree_depth"]
  | tracing => ["engine", "trace_enabled"]
  | logLevel => ["observability", "log_level"]
  | logFormat => ["observability", "log_format"]

def text (k : Key) : String := ".".intercalate k.path

def Value : Key → Type
  | maxRuleLength | maxCombineRules | maxTreeDepth => Nat
  | tracing => Bool
  | serviceName | environment | logLevel | logFormat => String

def get (s : Settings) : (k : Key) → k.Value
  | serviceName => s.serviceName
  | environment => s.environment
  | maxRuleLength => s.engine.maxRuleLength
  | maxCombineRules => s.engine.maxCombineRules
  | maxTreeDepth => s.engine.maxTreeDepth
  | tracing => s.engine.tracing
  | logLevel => s.logging.level
  | logFormat => s.logging.format

def convert : (k : Key) → Setting → Setting.Converted k.Value
  | maxRuleLength | maxCombineRules | maxTreeDepth => Setting.toUnsigned
  | tracing => Setting.toBoolean
  | serviceName | environment | logLevel | logFormat => Setting.toText

def read (k : Key) (root : Setting) : Except SettingsFault k.Value :=
  Settings.convert k.convert (k.get (fallback "")) ((root.at? k.path).map fun v => (k.text, v))

end Key

def parts : List String := ["engine", "observability"]

def Sectioned (es : Entries Setting) : Prop :=
  ∀ part ∈ parts, ∀ v, Entries.get? part es = some v → ∃ members, v = .table members

variable {es : Entries Setting}

end Rulebook.Settings
