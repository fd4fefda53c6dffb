import Rulebook.Command.Run
import Rulebook.Proofs.Engine
import Rulebook.Proofs.Outcome
import Rulebook.Proofs.Tree.Trace

/-! Commands and how they agree. To check a rule is to parse it and to evaluate the tree that is
printed; lines are only added to what an evaluation prints. -/

namespace Rulebook

namespace Json

def member? (k : String) : Json → Option Json
  | .object ms => ms.lookup k
  | _ => none

def without (ks : List String) : Json → Json
  | .object ms => .object (ms.filter fun m => !ks.contains m.1)
  | v => v

/-- The texts that are printed for a value: without blanks, or on lines, as the value stands by
itself or so many levels deep inside another. -/
def PrintedAs (v : Json) (s : String) : Prop :=
  s = v.render ∨ ∃ depth, s = String.ofList (v.writeLines depth)

theorem PrintedAs.ofString {v : Json} {s : String} (h : v.PrintedAs s) (hv : v.Stable) :
    JsonText.ofString s = ⟨v.document, false⟩ := by
  rcases h with rfl | ⟨depth, rfl⟩
  · exact JsonText.ofString_render v hv
  · exact JsonText.ofString_writeLines depth v hv

end Json

theorem Tree.ofText_of_printed {t : Tree} {s : String} (h : t.toJson.PrintedAs s)
    (hd : t.depth ≤ 126) (ho : "" ∉ t.operands) : Tree.ofText s = .ok t := by
  rw [← (toJson_storing.ofText_eq_ok_iff t).mpr ⟨hd, ho⟩, ofText, ofText,
    h.ofString (toJson_stable t), JsonText.ofString_render _ (toJson_stable t)]

theorem Engine.Emits.ofText_of_printed {e : Engine} {t : Tree} {s : String} (ht : e.Emits t)
    (h : t.toJson.PrintedAs s) : Tree.ofText s = .ok t := by
  obtain ⟨hd, ho⟩ := ht.well_formed
  exact Tree.ofText_of_printed h (by omega) ho

theorem Engine.evaluate_answer (e : Engine) (t : Tree) (c : Context) :
    (e.evaluate t c).answer = t.verdict c e.tracing := by
  unfold evaluate
  cases t.verdict c e.tracing with
  | error f => rfl
  | ok v => rfl

namespace Report
variable {ε α β : Type}

theorem answer_bind (r : Report ε α) (f : α → Report ε β) :
    (r >>= f).answer = r.answer >>= fun a => (f a).answer := by
  change (Report.bind r f).answer = _
  unfold Report.bind
  cases r.answer with
  | error e => rfl
  | ok a => rfl

theorem answer_pure (a : α) : (pure a : Report ε α).answer = .ok a := rfl

end Report

namespace Command
open Report

def judge (e : Engine) (t : Tree) (data : String) (tracing : Bool) : Report Failure Verdict := do
  let c ← readData data
  plain ((traced e tracing).evaluate t c)

theorem answer_judge (e : Engine) (t : Tree) (data : String) (tracing : Bool) (g : Verdict → Json) :
    (do
      let c ← readData data
      let v ← plain ((traced e tracing).evaluate t c)
      return g v : Report Failure Json).answer = (judge e t data tracing).answer.map g := by
  rw [judge, answer_bind, answer_bind]
  cases (readData data).answer with
  | error f => rfl
  | ok c =>
    change (plain ((traced e tracing).evaluate t c) >>= fun v => pure (g v)).answer =
      (plain ((traced e tracing).evaluate t c)).answer.map g
    rw [answer_bind]
    cases (plain ((traced e tracing).evaluate t c)).answer with
    | error f => rfl
    | ok v => rfl

theorem plain_eq_ok {α : Type} {r : Report Fault α} {a : α} :
    (plain r).answer = .ok a ↔ r.answer = .ok a := mapError_eq_ok

theorem plain_eq_error {α : Type} {r : Report Fault α} {f : Failure} :
    (plain r).answer = .error f ↔ ∃ g, r.answer = .error g ∧ ⟨none, g⟩ = f := by
  rw [plain, mapError, mapError_eq_error]

section
variable (e : Engine) (around : Surroundings)

theorem run_parse (rule : String) :
    (run e around (.parse rule)).answer = (plain (e.parse rule)).answer.map fun t =>
      RuleRecord.toJson ⟨around.id, rule, t, around.now⟩ := by
  rw [run, runParse, answer_bind]
  simp only [plain, Engine.create, Report.map, Report.mapError, answer_pure]
  cases (e.parse rule).answer with
  | error f => rfl
  | ok t => rfl

theorem run_combine (symbol : String) (rules : List String) :
    (run e around (.combine symbol rules)).answer =
      (plain (e.combineSymbol rules symbol)).answer.map fun t =>
        .object [("combined_ast", t.toJson)] := by
  rw [run, runCombine, answer_bind]
  cases (plain (e.combineSymbol rules symbol)).answer with
  | error f => rfl
  | ok t => rfl

theorem run_evaluate {tree : String} {t : Tree} (h : Tree.ofText tree = .ok t) (data : String)
    (tracing : Bool) :
    (run e around (.evaluate tree data tracing)).answer =
      (judge e t data tracing).answer.map fun v => v.toJson around.microseconds := by
  rw [run, runEvaluate, answer_bind, readTree, h]
  exact answer_judge e t data tracing _

theorem run_evaluate_error {tree : String} {f : Fault} (h : Tree.ofText tree = .error f)
    (data : String) (tracing : Bool) :
    (run e around (.evaluate tree data tracing)).answer = .error ⟨some "语法树无效", f⟩ := by
  rw [run, runEvaluate, answer_bind, readTree, h]
  rfl

theorem run_check {rule : String} {t : Tree} (h : (e.parse rule).answer = .ok t) (data : String)
    (tracing : Bool) :
    (run e around (.check rule data tracing)).answer =
      (judge e t data tracing).answer.map fun v =>
        .object [("ast", t.toJson), ("result", v.toJson around.microseconds)] := by
  rw [run, runCheck, answer_bind, plain, mapError, h]
  exact answer_judge e t data tracing _

theorem run_check_error {rule : String} {f : Fault} (h : (e.parse rule).answer = .error f)
    (data : String) (tracing : Bool) :
    (run e around (.check rule data tracing)).answer = .error ⟨none, f⟩ := by
  rw [run, runCheck, answer_bind, plain, mapError, h]
  rfl

end

/- What is printed of a verdict, without what depends on the clock or on the wish for lines. -/

theorem without_time (v : Verdict) (microseconds microseconds' : Nat) :
    (v.toJson microseconds).without ["evaluation_time_us"] =
      (v.toJson microseconds').without ["evaluation_time_us"] := by
  rw [Verdict.toJson, Verdict.toJson]
  cases v.trace.isEmpty with
  | true => rfl
  | false => rfl

theorem without_time_and_trace (v : Verdict) (microseconds : Nat) :
    (v.toJson microseconds).without ["evaluation_time_us", "evaluation_trace"] =
      .object [("matched", .boolean v.matched), ("value", v.value.toJson)] := by
  rw [Verdict.toJson]
  cases v.trace.isEmpty with
  | true => rfl
  | false => rfl

/-- Checking a rule fails as parsing it does. Otherwise it fails just if evaluating the printed tree
fails, and with the same fault; if not, it prints the same tree, and the same result up to the time
that was taken. A tree that is printed for a combination is evaluated as that very combination. -/
theorem check_parses_and_evaluates (e : Engine) (around around' around'' : Surroundings)
    (data : String) (tracing : Bool) :
    (∀ rule f, (run e around (.parse rule)).answer = .error f →
      (run e around' (.check rule data tracing)).answer = .error f) ∧
    (∀ rule record, (run e around (.parse rule)).answer = .ok record →
      ∃ tree, record.member? "ast" = some tree ∧ ∀ text, tree.PrintedAs text →
        (∀ f, (run e around' (.check rule data tracing)).answer = .error f ↔
          (run e around'' (.evaluate text data tracing)).answer = .error f) ∧
        ∀ checked, (run e around' (.check rule data tracing)).answer = .ok checked →
          ∃ result evaluated, checked.member? "ast" = some tree ∧
            checked.member? "result" = some result ∧
            (run e around'' (.evaluate text data tracing)).answer = .ok evaluated ∧
            result.without ["evaluation_time_us"] = evaluated.without ["evaluation_time_us"]) ∧
    ∀ symbol rules combined, (run e around (.combine symbol rules)).answer = .ok combined →
      ∃ t tree, (e.combineSymbol rules symbol).answer = .ok t ∧
        combined.member? "combined_ast" = some tree ∧ ∀ text, tree.PrintedAs text →
          Tree.ofText text = .ok t ∧ (run e around' (.evaluate text data tracing)).answer =
            (judge e t data tracing).answer.map fun v => v.toJson around'.microseconds := by
  refine ⟨fun rule f h => ?_, fun rule record h => ?_, fun symbol rules combined h => ?_⟩
  · rw [run_parse, map_eq_error] at h
    obtain ⟨g, ht, rfl⟩ := plain_eq_error.mp h
    exact run_check_error e around' ht data tracing
  · rw [run_parse] at h
    obtain ⟨t, ht, rfl⟩ := map_eq_ok.mp h
    have ht := plain_eq_ok.mp ht
    refine ⟨t.toJson, rfl, fun text htext => ?_⟩
    -- What is printed is read back as the very tree, so that both commands judge the same one.
    have hread := (Engine.Emits.parse rule ht).ofText_of_printed htext
    rw [run_check e around' ht, run_evaluate e around'' hread]
    refine ⟨fun f => by rw [map_eq_error, map_eq_error], fun checked hchecked => ?_⟩
    obtain ⟨v, hv, rfl⟩ := map_eq_ok.mp hchecked
    exact ⟨_, _, rfl, rfl, map_eq_ok.mpr ⟨v, hv, rfl⟩, without_time v _ _⟩
  · rw [run_combine] at h
    obtain ⟨t, ht, rfl⟩ := map_eq_ok.mp h
    have ht := plain_eq_ok.mp ht
    refine ⟨t, t.toJson, ht, rfl, fun text htext => ?_⟩
    have hread := (Engine.Emits.combineSymbol rules symbol ht).ofText_of_printed htext
    exact ⟨hread, run_evaluate e around' hread data tracing⟩

theorem check_parses_and_evaluates_adult :
    let around : Surroundings := ⟨"1", ⟨⟨2024, 2, 29⟩, 12, 0, 0, 0⟩, 7⟩
    let around' : Surroundings := ⟨"2", ⟨⟨2024, 3, 1⟩, 12, 0, 0, 0⟩, 9⟩
    let rule := "age > 30 AND city = 'Rome'"
    let data := "\x7b\"age\": 35, \"city\": \"Rome\"\x7d"
    ∃ record tree checked result evaluated,
      (run .default around (.parse rule)).answer = .ok record ∧ record.member? "ast" = some tree ∧
      (run .default around (.check rule data true)).answer = .ok checked ∧
      checked.member? "result" = some result ∧
      (run .default around' (.evaluate tree.render data true)).answer = .ok evaluated ∧
      result.without ["evaluation_time_us"] = evaluated.without ["evaluation_time_us"] := by
  intro around around' rule data
  obtain ⟨record, hrecord⟩ : ∃ record, (run .default around (.parse rule)).answer = .ok record :=
    exists_ok (by decide +kernel)
  obtain ⟨checked, hchecked⟩ : ∃ v, (run .default around (.check rule data true)).answer = .ok v :=
    exists_ok (by decide +kernel)
  obtain ⟨tree, htree, hagree⟩ := (check_parses_and_evaluates .default around around around' data
    true).2.1 rule record hrecord
  obtain ⟨result, evaluated, -, hresult, hevaluated, hsame⟩ :=
    (hagree tree.render (.inl rfl)).2 checked hchecked
  exact ⟨record, tree, checked, result, evaluated, hrecord, htree, hchecked, hresult, hevaluated,
    hsame⟩

def told (v : Verdict) : Value × Bool := (v.value, v.matched)

theorem map_told_verdict (t : Tree) (c : Context) (tracing : Bool) :
    (t.verdict c tracing).map told = (t.evaluate c).map fun v => (v, v.isTrue) := by
  rw [← Tree.map_value_verdictAt c tracing "root" t]
  change (t.verdictAt c tracing "root").map told = _
  cases t.verdictAt c tracing "root" with
  | error f => rfl
  | ok v => rfl

theorem run_evaluate_told (e : Engine) (around : Surroundings) (tree data : String)
    (tracing : Bool) :
    (run e around (.evaluate tree data tracing)).answer.map
        (·.without ["evaluation_time_us", "evaluation_trace"]) =
      (readTree tree).answer >>= fun t => (readData data).answer >>= fun c =>
        ((t.evaluate c).mapError fun f => ⟨none, f⟩).map fun v =>
          .object [("matched", .boolean v.isTrue), ("value", v.toJson)] := by
  cases ht : Tree.ofText tree with
  | error f =>
    rw [run_evaluate_error e around ht, readTree, ht]
    rfl
  | ok t =>
    rw [run_evaluate e around ht, readTree, ht, judge, answer_bind]
    change _ = (readData data).answer >>= _
    cases (readData data).answer with
    | error f => rfl
    | ok c =>
      have hverdict : (plain ((traced e tracing).evaluate t c)).answer =
          (t.verdict c (e.tracing || tracing)).mapError fun f => ⟨none, f⟩ := by
        rw [plain, mapError, Engine.evaluate_answer]
        rfl
      change ((plain ((traced e tracing).evaluate t c)).answer.map _).map _ =
        ((t.evaluate c).mapError _).map _
      rw [hverdict, ← Tree.map_value_verdictAt c (e.tracing || tracing) "root" t]
      change _ = (((t.verdict c (e.tracing || tracing)).map _).mapError _).map _
      cases t.verdict c (e.tracing || tracing) with
      | error f => rfl
      | ok v => exact congrArg Except.ok (without_time_and_trace v around.microseconds)

/-- Lines are all that tracing adds: an evaluation, an engine and a command have the same value or
the same fault without them. There are no lines unless they are asked for, and then there is one for
each node, in post-order. -/
theorem tracing_observes (t : Tree) (c : Context) :
    (∀ tracing, (t.verdict c tracing).map told = (t.evaluate c).map fun v => (v, v.isTrue)) ∧
    (∀ v, t.verdict c false = .ok v → v.trace = []) ∧
    (∀ v, t.verdict c true = .ok v → List.Forall₂ (Trace.Line c "root") t.sites v.trace) ∧
    (t.sites.map Prod.snd = t.postorder ∧ (t.sites.map Prod.fst).Nodup ∧
      ∀ p u, (p, u) ∈ t.sites ↔ t.at? p = some u) ∧
    (∀ e : Engine, (Engine.evaluate { e with tracing := true } t c).answer.map told =
      (Engine.evaluate { e with tracing := false } t c).answer.map told) ∧
    ∀ e around around' tree data, (run e around (.evaluate tree data true)).answer.map
        (·.without ["evaluation_time_us", "evaluation_trace"]) =
      (run e around' (.evaluate tree data false)).answer.map
        (·.without ["evaluation_time_us", "evaluation_trace"]) := by
  refine ⟨map_told_verdict t c, fun v h => Tree.trace_of_quiet h, fun v h => Tree.trace_lines h,
    ⟨Tree.map_snd_sites t, Tree.nodup_paths t, fun p u => Tree.mem_sites⟩, fun e => ?_,
    fun e around around' tree data => ?_⟩
  · rw [Engine.evaluate_answer, Engine.evaluate_answer, map_told_verdict, map_told_verdict]
  · rw [run_evaluate_told, run_evaluate_told]

theorem tracing_observes_adult :
    let t := Tree.node .and (.node .gt (.operand "age") (.operand "30"))
      (.node .eq (.operand "city") (.operand "'Rome'"))
    let c := Context.ofList [("age", .number (.ofInt 35)), ("city", .text "Rome")]
    let lines := ["root.left.left: age => 35", "root.left.right: 30 => 30",
      "root.left: 35 > 30 => true", "root.right.left: city => 'Rome'",
      "root.right.right: 'Rome' => 'Rome'", "root.right: 'Rome' = 'Rome' => true",
      "root: true AND true => true"]
    t.verdict c true = .ok ⟨.boolean true, lines⟩ ∧
      List.Forall₂ (Trace.Line c "root") t.sites lines := by
  intro t c lines
  have h : t.verdict c true = .ok ⟨.boolean true, lines⟩ := by decide +kernel
  exact ⟨h, (tracing_observes t c).2.2.1 _ h⟩

end Command
end Rulebook
