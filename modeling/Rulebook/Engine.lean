import Rulebook.Combination
import Rulebook.Evaluation
import Rulebook.Observation
import Rulebook.RuleRecord

/-! The engine: reading, combining and evaluating within limits, with metrics and events. -/

namespace Rulebook

structure Engine where
  maxRuleLength : Nat
  maxCombineRules : Nat
  maxTreeDepth : Nat
  tracing : Bool
  deriving DecidableEq, Repr

namespace Engine

def default : Engine := ⟨4096, 1024, 100, false⟩

/-- A text may nest 127 objects, and a tree of depth `d` nests `d + 1`. -/
def storedDepth : Nat := 126

/-- No tree leaves the engine that could not be read back. -/
def depthLimit (e : Engine) : Nat := min e.maxTreeDepth storedDepth

def target : String := "rule_engine::engine"

def combinerTarget : String := "rule_engine::combiner"

/-- Lengths count characters. -/
def checkLength (e : Engine) (rule : String) : Except Fault Unit :=
  if e.maxRuleLength < rule.length then
    .error (.tooLarge .ruleLength rule.length e.maxRuleLength)
  else .ok ()

def checkLengths (e : Engine) : List String → Except Fault Unit
  | [] => .ok ()
  | rule :: rules => do
    e.checkLength rule
    checkLengths e rules

def checkCount (e : Engine) (rules : List String) : Except Fault Unit :=
  if e.maxCombineRules < rules.length then
    .error (.tooLarge .ruleCount rules.length e.maxCombineRules)
  else .ok ()

def checkDepth (e : Engine) (t : Tree) : Except Fault Tree :=
  if e.depthLimit < t.depth then .error (.tooLarge .treeDepth t.depth e.depthLimit) else .ok t

/- Spans and their events. -/

def parseSpan (rule : String) (events : List Event) : Span :=
  ⟨"parse", [("rule_len", toString rule.utf8ByteSize)], events⟩

def combineSpan (rules : List String) (op : Operator) (events : List Event) : Span :=
  ⟨"combine", [("rule_count", toString rules.length), ("operator", op.symbol)], events⟩

def evaluateSpan (events : List Event) : Span := ⟨"evaluate", [], events⟩

def skipEvents (rules : List String) : List Event :=
  (Combination.readings rules).filterMap fun (rule, reading) =>
    match reading with
    | .ok _ => none
    | .error f =>
      some ⟨.warn, combinerTarget, "合并时跳过无法解析的规则",
        [("rule", rule), ("error", f.message)]⟩

/-- A text that is too long is refused before it is counted. -/
def parse (e : Engine) (rule : String) : Report Fault Tree :=
  match e.checkLength rule with
  | .error f => ⟨.error f, [], [parseSpan rule []]⟩
  | .ok _ =>
    match RuleText.parse rule >>= e.checkDepth with
    | .ok t =>
      ⟨.ok t, [.parse .success],
        [parseSpan rule [⟨.debug, target, "规则解析完成", [("ast", t.formula)]⟩]]⟩
    | .error f =>
      ⟨.error f, [.parse .failure],
        [parseSpan rule
          [⟨.warn, target, "规则解析失败", [("rule", rule), ("error", f.message)]⟩]]⟩

def create (e : Engine) (id : String) (now : Timestamp) (rule : String) :
    Report Fault RuleRecord :=
  (e.parse rule).map fun t => ⟨id, rule, t, now⟩

def combine (e : Engine) (rules : List String) (op : Operator) : Report Fault Tree :=
  match e.checkCount rules >>= fun _ => e.checkLengths rules with
  | .error f => ⟨.error f, [], [combineSpan rules op []]⟩
  | .ok _ =>
    match Combination.combine op rules >>= e.checkDepth with
    | .ok t =>
      ⟨.ok t, [.combine .success, .combineSize rules.length],
        [combineSpan rules op (skipEvents rules ++
          [⟨.debug, target, "规则合并完成", [("depth", toString t.depth)]⟩])]⟩
    | .error f =>
      -- Limits aside, only an empty combination fails.
      let status : CombineStatus := if f = .nothingToCombine then .empty else .tooDeep
      ⟨.error f, [.combine status, .combineSize rules.length],
        [combineSpan rules op (skipEvents rules ++
          [⟨.warn, target, "规则合并失败", [("error", f.message)]⟩])]⟩

def combineSymbol (e : Engine) (rules : List String) (symbol : String) : Report Fault Tree :=
  match Operator.read symbol with
  | .error f => ⟨.error f, [], []⟩
  | .ok op => e.combine rules op

/-- Only evaluations that succeed are timed. -/
def evaluate (e : Engine) (t : Tree) (c : Context) : Report Fault Verdict :=
  match t.verdict c e.tracing with
  | .ok v =>
    ⟨.ok v, [.evaluation .success, .evaluationTime],
      [evaluateSpan [⟨.debug, target, "规则评估完成",
        [("matched", if v.matched then "true" else "false"), ("value", v.value.display)]⟩]]⟩
  | .error f =>
    ⟨.error f, [.evaluation .error],
      [evaluateSpan [⟨.warn, target, "规则评估失败", [("error", f.message)]⟩]]⟩

end Engine
end Rulebook
