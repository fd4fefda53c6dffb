import Rulebook.Engine
import Rulebook.Proofs.Combination
import Rulebook.Proofs.RuleText.Reading
import Rulebook.Proofs.Tree.Trace

/-! The metrics of an engine over a run of calls. What a call records is settled by its kind and by
how it ends, so every counter and histogram of a run can be told from the ends of its calls. -/

namespace Rulebook

namespace Metric

def counts (name status : String) (m : Metric) : Bool :=
  m.instrument = .counter && m.name = name && m.status? = some status

def observes (name : String) (m : Metric) : Bool :=
  m.instrument = .histogram && m.name = name

end Metric

def Fault.exceeds (measure : Measure) : Fault → Bool
  | .tooLarge m _ _ => m = measure
  | _ => false

def Fault.isUnknownOperator : Fault → Bool
  | .unknownOperator _ => true
  | _ => false

/- What the parts of a call can fail with. -/

theorem Combination.combine_eq_error {op : Operator} {rules : List String} {f : Fault}
    (h : combine op rules = .error f) : f = .nothingToCombine :=
  (balanced_eq_error_iff.mp h).2

namespace Engine
variable {e : Engine} {f : Fault}

theorem bind_checkDepth_eq_error {r : Except Fault Tree} (h : r >>= e.checkDepth = .error f) :
    r = .error f ∨ ∃ actual limit, f = .tooLarge .treeDepth actual limit := by
  rcases bind_eq_error.mp h with h | ⟨t, -, h⟩
  · exact .inl h
  · unfold checkDepth at h
    split at h
    · cases h
      exact .inr ⟨_, _, rfl⟩
    · cases h

theorem checkLength_eq_error {rule : String} (h : e.checkLength rule = .error f) :
    ∃ actual limit, f = .tooLarge .ruleLength actual limit := by
  unfold checkLength at h
  split at h
  · cases h
    exact ⟨_, _, rfl⟩
  · cases h

theorem checkLengths_eq_error {rules : List String} (h : e.checkLengths rules = .error f) :
    ∃ actual limit, f = .tooLarge .ruleLength actual limit := by
  induction rules with
  | nil => cases h
  | cons rule rules ih =>
    rw [checkLengths] at h
    cases hrule : e.checkLength rule with
    | error g =>
      rw [hrule] at h
      cases h
      exact checkLength_eq_error hrule
    | ok _ =>
      rw [hrule] at h
      exact ih h

theorem checks_eq_error {rules : List String}
    (h : (e.checkCount rules >>= fun _ => e.checkLengths rules) = .error f) :
    ∃ actual limit, f = .tooLarge .ruleCount actual limit ∨
      f = .tooLarge .ruleLength actual limit := by
  unfold checkCount at h
  split at h
  · cases h
    exact ⟨_, _, .inl rfl⟩
  · obtain ⟨actual, limit, hf⟩ := checkLengths_eq_error h
    exact ⟨actual, limit, .inr hf⟩

/-- A call of an engine. The identifier and the time of a record come from outside. -/
inductive Call where
  | parse (rule : String)
  | create (id : String) (now : Timestamp) (rule : String)
  | combine (rules : List String) (op : Operator)
  | combineSymbol (rules : List String) (symbol : String)
  | evaluate (t : Tree) (c : Context)

namespace Call

inductive Kind where
  | reading
  | combining
  | evaluating
  deriving DecidableEq

def kind : Call → Kind
  | parse _ | create _ _ _ => .reading
  | combine _ _ | combineSymbol _ _ => .combining
  | evaluate _ _ => .evaluating

def rules : Call → List String
  | combine rules _ | combineSymbol rules _ => rules
  | _ => []

def report (e : Engine) : Call → Report Fault Unit
  | parse rule => (e.parse rule).map fun _ => ()
  | create id now rule => (e.create id now rule).map fun _ => ()
  | combine rules op => (e.combine rules op).map fun _ => ()
  | combineSymbol rules symbol => (e.combineSymbol rules symbol).map fun _ => ()
  | evaluate t c => (e.evaluate t c).map fun _ => ()

end Call

/-- How a call can end, and what it records then. `size` is the number of texts to combine. -/
inductive Ends (size : Nat) : Call.Kind → Except Fault Unit → List Metric → Prop
  | parsed : Ends size .reading (.ok ()) [.parse .success]
  | unreadable (fragment : String) :
    Ends size .reading (.error (.unreadable fragment)) [.parse .failure]
  | parsedTooDeep (actual limit : Nat) :
    Ends size .reading (.error (.tooLarge .treeDepth actual limit)) [.parse .failure]
  | ruleTooLong (actual limit : Nat) :
    Ends size .reading (.error (.tooLarge .ruleLength actual limit)) []
  | combined : Ends size .combining (.ok ()) [.combine .success, .combineSize size]
  | nothing :
    Ends size .combining (.error .nothingToCombine) [.combine .empty, .combineSize size]
  | combinedTooDeep (actual limit : Nat) :
    Ends size .combining (.error (.tooLarge .treeDepth actual limit))
      [.combine .tooDeep, .combineSize size]
  | tooMany (actual limit : Nat) :
    Ends size .combining (.error (.tooLarge .ruleCount actual limit)) []
  | partTooLong (actual limit : Nat) :
    Ends size .combining (.error (.tooLarge .ruleLength actual limit)) []
  | unknownOperator (symbol : String) :
    Ends size .combining (.error (.unknownOperator symbol)) []
  | evaluated : Ends size .evaluating (.ok ()) [.evaluation .success, .evaluationTime]
  | unresolved (field : String) :
    Ends size .evaluating (.error (.unresolved field)) [.evaluation .error]
  | mismatch (op : Operator) (left right : Kind) :
    Ends size .evaluating (.error (.mismatch op left right)) [.evaluation .error]

theorem ends_parse (e : Engine) (size : Nat) (rule : String) :
    Ends size .reading ((e.parse rule).answer.map fun _ => ()) (e.parse rule).metrics := by
  unfold parse
  cases hlen : e.checkLength rule with
  | error f =>
    obtain ⟨actual, limit, rfl⟩ := checkLength_eq_error hlen
    exact .ruleTooLong actual limit
  | ok _ =>
    cases hread : RuleText.parse rule >>= e.checkDepth with
    | ok t => exact .parsed
    | error f =>
      rcases bind_checkDepth_eq_error hread with htree | ⟨actual, limit, rfl⟩
      · obtain ⟨p, -, rfl⟩ := RuleText.tree_eq_error_iff.mp htree
        exact .unreadable _
      · exact .parsedTooDeep actual limit

theorem ends_combine (e : Engine) (rules : List String) (op : Operator) :
    Ends rules.length .combining ((e.combine rules op).answer.map fun _ => ())
      (e.combine rules op).metrics := by
  unfold combine
  cases hchecks : e.checkCount rules >>= fun _ => e.checkLengths rules with
  | error f =>
    rcases checks_eq_error hchecks with ⟨actual, limit, rfl | rfl⟩
    · exact .tooMany actual limit
    · exact .partTooLong actual limit
  | ok _ =>
    cases htree : Combination.combine op rules >>= e.checkDepth with
    | ok t => exact .combined
    | error f =>
      rcases bind_checkDepth_eq_error htree with htree | ⟨actual, limit, rfl⟩
      · obtain rfl := Combination.combine_eq_error htree
        exact .nothing
      · exact .combinedTooDeep actual limit

theorem ends_evaluate (e : Engine) (t : Tree) (c : Context) :
    Ends 0 .evaluating ((e.evaluate t c).answer.map fun _ => ()) (e.evaluate t c).metrics := by
  unfold evaluate
  cases hverdict : t.verdict c e.tracing with
  | ok v => exact .evaluated
  | error f =>
    have hvalue := Tree.map_value_verdictAt c e.tracing "root" t
    rw [Tree.verdict] at hverdict
    rw [hverdict] at hvalue
    rcases Tree.fault_cases hvalue.symm with
      ⟨x, -, -, rfl⟩ | ⟨op, -, -, a, b, -, -, -, -, -, rfl⟩
    · exact .unresolved x
    · exact .mismatch op a.kind b.kind

theorem Call.report_ends (e : Engine) (k : Call) :
    Ends k.rules.length k.kind (k.report e).answer (k.report e).metrics := by
  cases k with
  | parse rule => exact ends_parse e 0 rule
  | create id now rule =>
    have hmap : (e.create id now rule).answer.map (fun _ => ()) =
        (e.parse rule).answer.map fun _ => () := by
      rw [Engine.create, Report.map]
      cases (e.parse rule).answer <;> rfl
    rw [report, Report.map, hmap]
    exact ends_parse e 0 rule
  | combine rules op => exact ends_combine e rules op
  | combineSymbol rules symbol =>
    rw [report, Engine.combineSymbol, Operator.read]
    cases Operator.ofSymbol? symbol with
    | none => exact .unknownOperator symbol
    | some op => exact ends_combine e rules op
  | evaluate t c => exact ends_evaluate e t c

/- A run: call after call, each adding what it records. -/

def record (e : Engine) (ms : List Metric) (k : Call) : List Metric :=
  ms ++ (k.report e).metrics

def metrics (e : Engine) (calls : List Call) : List Metric := calls.foldl e.record []

theorem metrics_append (e : Engine) (calls : List Call) (k : Call) :
    e.metrics (calls ++ [k]) = e.metrics calls ++ (k.report e).metrics := by
  rw [metrics, List.foldl_append]
  rfl

/-- If every call adds one thing of a sort or none, as its end tells, then so does the run. -/
theorem filter_metrics {p : Metric → Bool} (q : Call.Kind → Except Fault Unit → Bool)
    (one : Nat → Metric)
    (h : ∀ {size kind answer ms}, Ends size kind answer ms →
      ms.filter p = if q kind answer then [one size] else []) (e : Engine) (calls : List Call) :
    (e.metrics calls).filter p =
      (calls.filter fun k => q k.kind (k.report e).answer).map fun k => one k.rules.length := by
  -- From the last call back: only its own end tells what it adds.
  induction calls using List.reverseRecOn with
  | nil => rfl
  | append_singleton calls k ih =>
    rw [metrics_append, List.filter_append, ih, h (k.report_ends e), List.filter_append,
      List.map_append]
    cases hq : q k.kind (k.report e).answer <;> simp [hq]

def counter (name status : String) (ms : List Metric) : Nat := ms.countP (Metric.counts name status)

theorem counter_metrics {name status : String} (q : Call.Kind → Except Fault Unit → Bool)
    (one : Metric)
    (h : ∀ {size kind answer ms}, Ends size kind answer ms →
      ms.filter (Metric.counts name status) = if q kind answer then [one] else [])
    (e : Engine) (calls : List Call) :
    counter name status (e.metrics calls) =
      calls.countP fun k => q k.kind (k.report e).answer := by
  rw [counter, List.countP_eq_length_filter, filter_metrics q (fun _ => one) h,
    List.length_map, ← List.countP_eq_length_filter]

def failed (p : Fault → Bool) : Except Fault Unit → Bool
  | .ok _ => false
  | .error f => p f

/-- Whether a fault refuses the input or the operator of a call, before any work is done. -/
def isRefusal (f : Fault) : Bool :=
  f.exceeds .ruleCount || f.exceeds .ruleLength || f.isUnknownOperator

theorem Ends.metrics_of_refusal {size : Nat} {kind : Call.Kind} {answer : Except Fault Unit}
    {ms : List Metric} (h : Ends size kind answer ms) (hrefusal : failed isRefusal answer) :
    ms = [] := by
  cases h with
  | ruleTooLong | tooMany | partTooLong | unknownOperator => rfl
  | _ => cases hrefusal

theorem Ends.no_parse_of_combining {size : Nat} {answer : Except Fault Unit} {ms : List Metric}
    (h : Ends size .combining answer ms) (status : String) :
    counter "rule_parses_total" status ms = 0 := by
  cases h <;> rfl

/-- The counters of a run are the numbers of its calls of each kind that ended in each way, and the
histograms hold one observation for each call that is observed, in the order of the calls. A call
that is refused records nothing, and combining rules does not count as parsing them. -/
theorem metrics_account_for_calls (e : Engine) (calls : List Call) :
    let ms := e.metrics calls
    let reading (k : Call) : Bool := k.kind = .reading
    let combining (k : Call) : Bool := k.kind = .combining
    let evaluating (k : Call) : Bool := k.kind = .evaluating
    let succeeds (k : Call) : Bool := (k.report e).answer.isOk
    let fails (p : Fault → Bool) (k : Call) : Bool := failed p (k.report e).answer
    (counter "rule_parses_total" "success" ms = calls.countP fun k => reading k && succeeds k) ∧
    (counter "rule_parses_total" "failure" ms =
      calls.countP fun k => reading k && fails (fun f => !f.exceeds .ruleLength) k) ∧
    (counter "rule_combines_total" "success" ms =
      calls.countP fun k => combining k && succeeds k) ∧
    (counter "rule_combines_total" "empty" ms =
      calls.countP fun k => combining k && fails (fun f => f = .nothingToCombine) k) ∧
    (counter "rule_combines_total" "too_deep" ms =
      calls.countP fun k => combining k && fails (Fault.exceeds .treeDepth) k) ∧
    (ms.filter (Metric.observes "rule_combine_input_size") =
      (calls.filter fun k => combining k && (succeeds k ||
        fails (fun f => f = .nothingToCombine || f.exceeds .treeDepth) k)).map
          fun k => .combineSize k.rules.length) ∧
    (counter "rule_evaluations_total" "success" ms =
      calls.countP fun k => evaluating k && succeeds k) ∧
    (counter "rule_evaluations_total" "error" ms =
      calls.countP fun k => evaluating k && fails (fun _ => true) k) ∧
    (ms.filter (Metric.observes "rule_evaluation_duration_seconds") =
      (calls.filter fun k => evaluating k && succeeds k).map fun _ => .evaluationTime) ∧
    (∀ k, fails isRefusal k → e.metrics (calls ++ [k]) = ms) ∧
    (∀ k status, combining k → counter "rule_parses_total" status (e.metrics (calls ++ [k])) =
      counter "rule_parses_total" status ms) := by
  intro ms reading combining evaluating succeeds fails
  refine ⟨?_, ?_, ?_, ?_, ?_, ?_, ?_, ?_, ?_, ?_, ?_⟩
  · exact counter_metrics (fun kind answer => kind = .reading && answer.isOk)
      (.parse .success) (fun h => by cases h <;> rfl) e calls
  · exact counter_metrics
      (fun kind answer => kind = .reading && failed (fun f => !f.exceeds .ruleLength) answer)
      (.parse .failure) (fun h => by cases h <;> rfl) e calls
  · exact counter_metrics (fun kind answer => kind = .combining && answer.isOk)
      (.combine .success) (fun h => by cases h <;> rfl) e calls
  · exact counter_metrics
      (fun kind answer => kind = .combining && failed (fun f => f = .nothingToCombine) answer)
      (.combine .empty) (fun h => by cases h <;> rfl) e calls
  · exact counter_metrics
      (fun kind answer => kind = .combining && failed (Fault.exceeds .treeDepth) answer)
      (.combine .tooDeep) (fun h => by cases h <;> rfl) e calls
  · exact filter_metrics (fun kind answer => kind = .combining && (answer.isOk ||
        failed (fun f => f = .nothingToCombine || f.exceeds .treeDepth) answer))
      .combineSize (fun h => by cases h <;> rfl) e calls
  · exact counter_metrics (fun kind answer => kind = .evaluating && answer.isOk)
      (.evaluation .success) (fun h => by cases h <;> rfl) e calls
  · exact counter_metrics
      (fun kind answer => kind = .evaluating && failed (fun _ => true) answer)
      (.evaluation .error) (fun h => by cases h <;> rfl) e calls
  · exact filter_metrics (fun kind answer => kind = .evaluating && answer.isOk)
      (fun _ => .evaluationTime) (fun h => by cases h <;> rfl) e calls
  · intro k hk
    rw [metrics_append, (k.report_ends e).metrics_of_refusal hk, List.append_nil]
  · intro k status hk
    have hends := k.report_ends e
    rw [of_decide_eq_true hk] at hends
    rw [metrics_append, counter, List.countP_append]
    exact congrArg (_ + ·) (hends.no_parse_of_combining status)

end Engine
end Rulebook
