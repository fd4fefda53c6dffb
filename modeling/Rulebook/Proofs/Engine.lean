import Rulebook.Engine
import Rulebook.Proofs.Combination
import Rulebook.Proofs.Outcome
import Rulebook.Proofs.RuleText.Depth
import Rulebook.Proofs.RuleRecord

/-! What an engine hands out can be stored and read again, as long as it is a tree. A record of
such a tree can be read again unless the tree is as deep as a tree may be. -/

namespace Rulebook.Engine

theorem checkLength_eq_ok {e : Engine} {rule : String} :
    e.checkLength rule = .ok () ↔ rule.length ≤ e.maxRuleLength := by
  rw [checkLength, ite_eq_right_iff, ← Nat.not_lt]
  simp

theorem checkLengths_eq_ok {e : Engine} {rules : List String} :
    e.checkLengths rules = .ok () ↔ ∀ s ∈ rules, s.length ≤ e.maxRuleLength := by
  induction rules with
  | nil => simp [checkLengths]
  | cons s rules ih =>
    rw [checkLengths, bind_eq_ok, List.forall_mem_cons, ← ih, ← checkLength_eq_ok]
    exact ⟨fun ⟨_, hs, hrules⟩ => ⟨hs, hrules⟩, fun ⟨hs, hrules⟩ => ⟨(), hs, hrules⟩⟩

theorem checkCount_eq_ok {e : Engine} {rules : List String} :
    e.checkCount rules = .ok () ↔ rules.length ≤ e.maxCombineRules := by
  rw [checkCount, ite_eq_right_iff, ← Nat.not_lt]
  simp

theorem checkDepth_eq_ok {e : Engine} {t u : Tree} :
    e.checkDepth t = .ok u ↔ t = u ∧ t.depth ≤ e.depthLimit := by
  rw [checkDepth]
  split
  · next hd => simp [Nat.not_le.mpr hd]
  · next hd => simp [Nat.not_lt.mp hd]

theorem bind_checkDepth (e : Engine) (r : Except Fault Tree) (t : Tree) :
    r >>= e.checkDepth = .ok t ↔ r = .ok t ∧ t.depth ≤ e.depthLimit := by
  rw [bind_eq_ok]
  constructor
  · rintro ⟨u, hu, hcheck⟩
    obtain ⟨rfl, hd⟩ := checkDepth_eq_ok.mp hcheck
    exact ⟨hu, hd⟩
  · rintro ⟨ht, hd⟩
    exact ⟨t, ht, checkDepth_eq_ok.mpr ⟨rfl, hd⟩⟩

theorem parse_answer {e : Engine} {rule : String} (h : e.checkLength rule = .ok ()) :
    (e.parse rule).answer = RuleText.parse rule >>= e.checkDepth := by
  rw [parse, h]
  dsimp only
  cases RuleText.parse rule >>= e.checkDepth <;> rfl

theorem combine_answer {e : Engine} {rules : List String} {op : Operator}
    (hcount : e.checkCount rules = .ok ()) (hlengths : e.checkLengths rules = .ok ()) :
    (e.combine rules op).answer = Combination.combine op rules >>= e.checkDepth := by
  have hchecks : (e.checkCount rules >>= fun _ => e.checkLengths rules) = .ok () := by
    rw [hcount, hlengths]
    rfl
  rw [combine, hchecks]
  dsimp only
  cases Combination.combine op rules >>= e.checkDepth <;> rfl

theorem parse_answer_eq_ok (e : Engine) (rule : String) (t : Tree) :
    (e.parse rule).answer = .ok t ↔
      e.checkLength rule = .ok () ∧ RuleText.parse rule = .ok t ∧ t.depth ≤ e.depthLimit := by
  cases hlength : e.checkLength rule with
  | error f => simp [parse, hlength]
  | ok u => simp [parse_answer hlength, bind_checkDepth]

theorem combine_answer_eq_ok (e : Engine) (rules : List String) (op : Operator) (t : Tree) :
    (e.combine rules op).answer = .ok t ↔
      (e.checkCount rules = .ok () ∧ e.checkLengths rules = .ok ()) ∧
        Combination.combine op rules = .ok t ∧ t.depth ≤ e.depthLimit := by
  cases hcount : e.checkCount rules with
  | error f => simp [combine, hcount, bind, Except.bind]
  | ok u =>
    cases hlengths : e.checkLengths rules with
    | error f => simp [combine, hcount, hlengths, bind, Except.bind]
    | ok u => simp [combine_answer hcount hlengths, bind_checkDepth]

theorem create_answer_eq_ok (e : Engine) (id : String) (now : Timestamp) (rule : String)
    (r : RuleRecord) : (e.create id now rule).answer = .ok r ↔
      ∃ t, (e.parse rule).answer = .ok t ∧ r = ⟨id, rule, t, now⟩ := by
  unfold create Report.map
  cases (e.parse rule).answer with
  | error f => simp [Except.map]
  | ok t => simp [Except.map, eq_comm]

inductive Emits (e : Engine) (t : Tree) : Prop
  | parse (rule : String) (h : (e.parse rule).answer = .ok t)
  | combine (rules : List String) (op : Operator) (h : (e.combine rules op).answer = .ok t)
  | combineSymbol (rules : List String) (symbol : String)
      (h : (e.combineSymbol rules symbol).answer = .ok t)

theorem combineSymbol_answer (e : Engine) (rules : List String) (symbol : String) (t : Tree)
    (h : (e.combineSymbol rules symbol).answer = .ok t) :
    ∃ op, (e.combine rules op).answer = .ok t := by
  unfold combineSymbol at h
  split at h
  · cases h
  · next op _ => exact ⟨op, h⟩

theorem Emits.well_formed {e : Engine} {t : Tree} (h : e.Emits t) :
    t.depth ≤ min e.maxTreeDepth 126 ∧ "" ∉ t.operands := by
  have hcombined (rules : List String) (op : Operator)
      (h : (e.combine rules op).answer = .ok t) :
      t.depth ≤ min e.maxTreeDepth 126 ∧ "" ∉ t.operands := by
    obtain ⟨-, ht, hd⟩ := (combine_answer_eq_ok e rules op t).mp h
    exact ⟨hd, Combination.combine_operands op rules t ht⟩
  cases h with
  | parse rule h =>
    obtain ⟨-, ht, hd⟩ := (parse_answer_eq_ok e rule t).mp h
    exact ⟨hd, RuleText.parse_operands rule t ht⟩
  | combine rules op h => exact hcombined rules op h
  | combineSymbol rules symbol h =>
    obtain ⟨op, h⟩ := combineSymbol_answer e rules symbol t h
    exact hcombined rules op h

theorem repeated_emitted (e : Engine) (n : Nat) (hlen : 3 + n * 8 ≤ e.maxRuleLength)
    (hd : n + 1 ≤ e.depthLimit) :
    ∃ t, (e.parse (String.ofList (RuleText.repeated "a=1".toList n))).answer = .ok t ∧
      t.depth = n + 1 := by
  have hnormal : RuleText.IsNormal "a=1".toList :=
    ⟨by simp [Text.isBlank], by decide, by simp [Text.isBlank], by simp [Text.isBlank]⟩
  obtain ⟨t, ht, hdepth⟩ := RuleText.parse_repeated "a=1".toList n
    (.node .eq (.operand "a") (.operand "1")) hnormal (by decide) (by decide) (by decide +kernel)
  have hcheck : e.checkLength (String.ofList (RuleText.repeated "a=1".toList n)) = .ok () := by
    rw [checkLength_eq_ok, String.length_ofList, RuleText.repeated_length]
    exact hlen
  have hd' : t.depth = n + 1 := by
    rw [hdepth]
    rfl
  exact ⟨t, (parse_answer_eq_ok e _ t).mpr ⟨hcheck, ht, by omega⟩, hd'⟩

/-- Every tree that an engine hands out can be read back from its text, and then has the same
value or the same fault on every context. -/
theorem emitted_reads_back (e : Engine) (t : Tree) (h : e.Emits t) :
    t.depth ≤ min e.maxTreeDepth 126 ∧ "" ∉ t.operands ∧
      Tree.ofText t.record.render = .ok t ∧
      ∀ c, Tree.ofText t.record.render >>= Tree.evaluate c = t.evaluate c := by
  obtain ⟨hd, ho⟩ := h.well_formed
  have hread := (Tree.record_storing.ofText_eq_ok_iff t).mpr ⟨by omega, ho⟩
  refine ⟨hd, ho, hread, fun c => ?_⟩
  rw [hread]
  rfl

theorem emitted_reads_back_deepest : ∃ t, Emits ⟨4096, 1024, 500, false⟩ t ∧ t.depth = 126 ∧
    Tree.ofText t.record.render = .ok t := by
  obtain ⟨t, ht, hd⟩ := repeated_emitted ⟨4096, 1024, 500, false⟩ 125 (by decide) (by decide)
  exact ⟨t, .parse _ ht, hd, (emitted_reads_back _ t (.parse _ ht)).2.2.1⟩

/-- A record that an engine makes is read back just if its tree is at most 125 levels deep. The
tree itself may be one level deeper, and then its record is refused. -/
theorem created_reads_back_iff (e : Engine) (id rule : String) (now later : Timestamp)
    (r : RuleRecord) (hnow : now.Valid) (h : (e.create id now rule).answer = .ok r) :
    r.tree.depth ≤ 126 ∧
      (RuleRecord.ofText later r.record.render = .ok r ↔ r.tree.depth ≤ 125) ∧
      (r.tree.depth = 126 → RuleRecord.ofText later r.record.render = .error .malformed) := by
  obtain ⟨t, ht, rfl⟩ := (create_answer_eq_ok e id now rule r).mp h
  obtain ⟨hd, ho⟩ := (Emits.parse rule ht).well_formed
  obtain ⟨hok, hdeep⟩ := RuleRecord.ofText_cases later ⟨id, rule, t, now⟩ hnow ho
  dsimp only at hok hdeep ⊢
  refine ⟨by omega, ⟨fun hr => ?_, hok⟩, fun hd => hdeep (by omega)⟩
  by_contra hn
  rw [hdeep (by omega)] at hr
  cases hr

theorem created_reads_back_at_limit : ∃ r,
    (create ⟨4096, 1024, 125, false⟩ "id" ⟨⟨2024, 2, 29⟩, 23, 59, 60, 120000⟩
      (String.ofList (RuleText.repeated "a=1".toList 124))).answer = .ok r ∧
    r.tree.depth = 125 ∧ RuleRecord.ofText ⟨⟨2025, 1, 1⟩, 0, 0, 0, 0⟩ r.record.render = .ok r := by
  obtain ⟨t, ht, hd⟩ := repeated_emitted ⟨4096, 1024, 125, false⟩ 124 (by decide) (by decide)
  have hr := (create_answer_eq_ok ⟨4096, 1024, 125, false⟩ "id"
    ⟨⟨2024, 2, 29⟩, 23, 59, 60, 120000⟩ _ _).mpr ⟨t, ht, rfl⟩
  exact ⟨_, hr, hd,
    (created_reads_back_iff _ _ _ _ _ _ (by decide) hr).2.1.mpr (Nat.le_of_eq hd)⟩

/-- One level more than that, and the record of an engine is no record any more. -/
theorem deepest_created_refused : ∃ r,
    (create ⟨4096, 1024, 126, false⟩ "id" ⟨⟨2024, 1, 1⟩, 0, 0, 0, 0⟩
      (String.ofList (RuleText.repeated "a=1".toList 125))).answer = .ok r ∧
    RuleRecord.ofText ⟨⟨2024, 1, 1⟩, 0, 0, 0, 0⟩ r.record.render = .error .malformed := by
  obtain ⟨t, ht, hd⟩ := repeated_emitted ⟨4096, 1024, 126, false⟩ 125 (by decide) (by decide)
  have hr := (create_answer_eq_ok ⟨4096, 1024, 126, false⟩ "id" ⟨⟨2024, 1, 1⟩, 0, 0, 0, 0⟩ _ _).mpr
    ⟨t, ht, rfl⟩
  have hnow : Timestamp.Valid ⟨⟨2024, 1, 1⟩, 0, 0, 0, 0⟩ := by decide
  have ho := (Emits.parse _ ht).well_formed.2
  have hdeep : 125 < t.depth := by omega
  exact ⟨_, hr, (RuleRecord.ofText_cases _ _ hnow ho).2 hdeep⟩

end Rulebook.Engine
