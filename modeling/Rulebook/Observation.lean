/-! What an engine lets its surroundings see: metrics and events, as data beside its answers. -/

namespace Rulebook

inductive Level where
  | error
  | warn
  | info
  | debug
  | trace
  deriving DecidableEq, Repr

namespace Level

def name : Level → String
  | .error => "ERROR"
  | .warn => "WARN"
  | .info => "INFO"
  | .debug => "DEBUG"
  | .trace => "TRACE"

/-- Greater for events of less weight. -/
def detail : Level → Nat
  | .error => 1
  | .warn => 2
  | .info => 3
  | .debug => 4
  | .trace => 5

end Level

abbrev LogFields := List (String × String)

structure Event where
  level : Level
  target : String
  message : String
  fields : LogFields
  deriving DecidableEq, Repr

structure Span where
  name : String
  fields : LogFields
  events : List Event
  deriving DecidableEq, Repr

inductive ParseStatus where
  | success
  | failure
  deriving DecidableEq, Repr

inductive CombineStatus where
  | success
  | empty
  | tooDeep
  deriving DecidableEq, Repr

inductive EvaluationStatus where
  | success
  | error
  deriving DecidableEq, Repr

/-- One step of a counter or one observation of a histogram. How long an evaluation took is known
only to its surroundings. -/
inductive Metric where
  | parse (status : ParseStatus)
  | combine (status : CombineStatus)
  | combineSize (rules : Nat)
  | evaluation (status : EvaluationStatus)
  | evaluationTime
  deriving DecidableEq, Repr

inductive Instrument where
  | counter
  | histogram
  deriving DecidableEq, Repr

def Instrument.name : Instrument → String
  | .counter => "counter"
  | .histogram => "histogram"

namespace Metric

def instrument : Metric → Instrument
  | .parse _ | .combine _ | .evaluation _ => .counter
  | .combineSize _ | .evaluationTime => .histogram

def name : Metric → String
  | .parse _ => "rule_parses_total"
  | .combine _ => "rule_combines_total"
  | .combineSize _ => "rule_combine_input_size"
  | .evaluation _ => "rule_evaluations_total"
  | .evaluationTime => "rule_evaluation_duration_seconds"

def description : Metric → String
  | .parse _ => "Total number of rule text parses"
  | .combine _ => "Total number of rule combinations"
  | .combineSize _ => "Number of rule texts passed to a combination"
  | .evaluation _ => "Total number of rule evaluations"
  | .evaluationTime => "Rule evaluation duration in seconds"

def status? : Metric → Option String
  | .parse .success | .combine .success | .evaluation .success => some "success"
  | .parse .failure => some "failure"
  | .combine .empty => some "empty"
  | .combine .tooDeep => some "too_deep"
  | .evaluation .error => some "error"
  | .combineSize _ | .evaluationTime => none

def line (elapsed : String) (m : Metric) : String :=
  let labels :=
    match m.status? with
    | some s => "\x7bstatus=" ++ s ++ "\x7d"
    | none => ""
  let amount :=
    match m with
    | .combineSize n => toString n
    | .evaluationTime => elapsed
    | _ => "+1"
  m.instrument.name ++ " " ++ m.name ++ labels ++ " " ++ amount

def kinds : List Metric :=
  [.combine .success, .evaluation .success, .parse .success, .combineSize 0, .evaluationTime]

end Metric

structure Report (ε α : Type) where
  answer : Except ε α
  metrics : List Metric
  spans : List Span

namespace Report
variable {ε ε' α β : Type}

def ofExcept (a : Except ε α) : Report ε α := ⟨a, [], []⟩

def map (f : α → β) (r : Report ε α) : Report ε β := ⟨r.answer.map f, r.metrics, r.spans⟩

def mapError (f : ε → ε') (r : Report ε α) : Report ε' α :=
  ⟨r.answer.mapError f, r.metrics, r.spans⟩

def bind (r : Report ε α) (f : α → Report ε β) : Report ε β :=
  match r.answer with
  | .error e => ⟨.error e, r.metrics, r.spans⟩
  | .ok a =>
    let s := f a
    ⟨s.answer, r.metrics ++ s.metrics, r.spans ++ s.spans⟩

instance : Monad (Report ε) where
  pure a := ofExcept (.ok a)
  bind := bind

end Report
end Rulebook
