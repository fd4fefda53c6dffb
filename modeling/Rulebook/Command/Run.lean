import Rulebook.Command.Line
import Rulebook.Context.Data
import Rulebook.Engine

/-! Running commands: each has a JSON value as its output. -/

namespace Rulebook

/-- A fault, and what it spoils if that is an argument. -/
structure Failure where
  context : Option String
  fault : Fault
  deriving DecidableEq, Repr

structure Surroundings where
  id : String
  now : Timestamp
  microseconds : Nat

def Verdict.toJson (v : Verdict) (microseconds : Nat) : Json :=
  .object ([("evaluation_time_us", .number (.whole microseconds))] ++
    (if v.trace.isEmpty then [] else [("evaluation_trace", .array (v.trace.map .text))]) ++
    [("matched", .boolean v.matched), ("value", v.value.toJson)])

namespace Command

def plain {α : Type} (r : Report Fault α) : Report Failure α := r.mapError fun f => ⟨none, f⟩

def readTree (s : String) : Report Failure Tree :=
  .ofExcept ((Tree.ofText s).mapError fun f => ⟨some "语法树无效", f⟩)

def readData (s : String) : Report Failure Context :=
  .ofExcept ((Context.ofText s).mapError fun f => ⟨some "评估数据无效", f⟩)

def traced (e : Engine) (tracing : Bool) : Engine :=
  ⟨e.maxRuleLength, e.maxCombineRules, e.maxTreeDepth, e.tracing || tracing⟩

def runParse (e : Engine) (around : Surroundings) (rule : String) : Report Failure Json := do
  let r ← plain (e.create around.id around.now rule)
  return r.toJson

def runCombine (e : Engine) (symbol : String) (rules : List String) : Report Failure Json := do
  let t ← plain (e.combineSymbol rules symbol)
  return .object [("combined_ast", t.toJson)]

def runEvaluate (e : Engine) (around : Surroundings) (tree data : String) (tracing : Bool) :
    Report Failure Json := do
  let t ← readTree tree
  let c ← readData data
  let v ← plain ((traced e tracing).evaluate t c)
  return v.toJson around.microseconds

def runCheck (e : Engine) (around : Surroundings) (rule data : String) (tracing : Bool) :
    Report Failure Json := do
  let t ← plain (e.parse rule)
  let c ← readData data
  let v ← plain ((traced e tracing).evaluate t c)
  return .object [("ast", t.toJson), ("result", v.toJson around.microseconds)]

def run (e : Engine) (around : Surroundings) : Command → Report Failure Json
  | .parse rule => runParse e around rule
  | .combine symbol rules => runCombine e symbol rules
  | .evaluate tree data tracing => runEvaluate e around tree data tracing
  | .check rule data tracing => runCheck e around rule data tracing

end Command
end Rulebook
