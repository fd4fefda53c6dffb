import Rulebook.Proofs.Combination.Meaning
import Rulebook.Proofs.RuleText.Joined

/-! Rules joined as texts and rules combined as trees answer alike. The two trees are not the
same: a joined text groups its parts to the left and keeps a rule that it holds twice. -/

namespace Rulebook.Combination
open Answer

theorem findSome?_filter_ne (f : String → Option Fault) (s : String) (hs : f s = none)
    (rules : List String) : (rules.filter (· != s)).findSome? f = rules.findSome? f := by
  induction rules with
  | nil => rfl
  | cons x r ih =>
    by_cases hx : x = s
    · rw [List.filter_cons_of_neg (by simp [hx]), ih, List.findSome?_cons, hx, hs]
    · rw [List.filter_cons_of_pos (by simp [hx]), List.findSome?_cons, List.findSome?_cons, ih]

theorem findSome?_distinct (f : String → Option Fault) (rules : List String) :
    (distinct rules).findSome? f = rules.findSome? f := by
  induction rules with
  | nil => rfl
  | cons s r ih =>
    rw [distinct, List.findSome?_cons, List.findSome?_cons]
    cases hs : f s with
    | some x => rfl
    | none => rw [findSome?_filter_ne f s hs, ih]

theorem conclude_distinct (op : Operator) (g : String → Answer) (rules : List String) :
    conclude op ((distinct rules).map g) = conclude op (rules.map g) := by
  have hfault : ((distinct rules).map g).findSome? fault? = (rules.map g).findSome? fault? := by
    rw [List.findSome?_map, List.findSome?_map, findSome?_distinct]
  have hall : ((distinct rules).map g).all holds = (rules.map g).all holds := by
    rw [List.all_map, List.all_map, Bool.eq_iff_iff, List.all_eq_true, List.all_eq_true]
    exact forall_congr' fun s => by rw [mem_distinct]
  have hany : ((distinct rules).map g).any holds = (rules.map g).any holds := by
    rw [List.any_map, List.any_map, Bool.eq_iff_iff, List.any_eq_true, List.any_eq_true]
    exact exists_congr fun s => by rw [mem_distinct]
  rw [conclude, conclude, hfault, hall, hany]

theorem combine_readable (op : Operator) (hop : op.isConnective) (rules : List String)
    (hne : rules ≠ []) (hread : ∀ s ∈ rules, ∃ t, RuleText.parse s = .ok t) :
    ∃ t, combine op rules = .ok t ∧
      ∀ c, t.evaluate c = conclude op (rules.map (RuleText.answer c)) := by
  have hkept : Kept rules (distinct rules) := by
    refine kept_iff.mpr (List.filter_eq_self.mpr fun s hs => ?_)
    obtain ⟨t, ht⟩ := hread s (mem_distinct.mp hs)
    rw [ht]
    rfl
  have htrees : trees rules ≠ [] := by
    obtain ⟨s, hs⟩ := List.exists_mem_of_ne_nil rules hne
    exact fun hnil =>
      List.ne_nil_of_mem (mem_distinct.mpr hs) (hkept.trees_eq_nil_iff.mp hnil)
  obtain ⟨t, ht⟩ := balanced_isOk op (trees rules) htrees
  refine ⟨t, ht, fun c => ?_⟩
  have hb (u : Tree) (hu : u ∈ trees rules) := isBoolean_of_mem_trees c hu
  rw [balanced_collect c (Operator.isOrdering_of_isConnective hop) ht hb,
    hkept.map_evaluate_trees, ← conclude_eq_collect op hop, conclude_distinct]

/-- A text with connectives between rules answers like the combination of these rules, as long as
the connective is not read into the start of a rule, and an OR not across an AND. -/
theorem joined_answers_combined (rules : List String) (hne : rules ≠ [])
    (hread : ∀ s ∈ rules, ∃ t, RuleText.parse s = .ok t)
    (hstart : ∀ s ∈ rules, ¬ "AND ".toList <+: RuleText.normalChars s.toList) :
    (∃ t u, RuleText.parse (" AND ".intercalate rules) = .ok t ∧ combine .and rules = .ok u ∧
      ∀ c, t.evaluate c = u.evaluate c) ∧
    ((∀ s ∈ rules, "AND".toList ∉ RuleText.words (RuleText.normalChars s.toList) ∧
        ¬ "OR ".toList <+: RuleText.normalChars s.toList) →
      ∃ t u, RuleText.parse (" OR ".intercalate rules) = .ok t ∧ combine .or rules = .ok u ∧
        ∀ c, t.evaluate c = u.evaluate c) := by
  constructor
  · obtain ⟨t, ht, hjoined⟩ := RuleText.parse_joined_and rules hne hread hstart
    obtain ⟨u, hu, hcombined⟩ := combine_readable .and rfl rules hne hread
    exact ⟨t, u, ht, hu, fun c => by rw [hjoined, hcombined]⟩
  · intro hor
    obtain ⟨t, ht, hjoined⟩ := RuleText.parse_joined_or rules hne hread (fun s hs => (hor s hs).1)
      fun s hs => (hor s hs).2
    obtain ⟨u, hu, hcombined⟩ := combine_readable .or rfl rules hne hread
    exact ⟨t, u, ht, hu, fun c => by rw [hjoined, hcombined]⟩

theorem joined_answers_combined_twice :
    (∃ t u, RuleText.parse "a=1 OR  b=2 AND  c = 'AND x'  AND a=1 OR  b=2" = .ok t ∧
      combine .and ["a=1 OR  b=2", " c = 'AND x' ", "a=1 OR  b=2"] = .ok u ∧
      ∀ c, t.evaluate c = u.evaluate c) ∧
    ∃ t u, RuleText.parse "a=1 OR  b=2 OR  c = 'AND x'  OR a=1 OR  b=2" = .ok t ∧
      combine .or ["a=1 OR  b=2", " c = 'AND x' ", "a=1 OR  b=2"] = .ok u ∧
      ∀ c, t.evaluate c = u.evaluate c := by
  have hread : ∀ s ∈ ["a=1 OR  b=2", " c = 'AND x' ", "a=1 OR  b=2"],
      ∃ t, RuleText.parse s = .ok t := by
    have hfirst : RuleText.parse "a=1 OR  b=2" = .ok (.node .or
      (.node .eq (.operand "a") (.operand "1")) (.node .eq (.operand "b") (.operand "2"))) := by
      decide +kernel
    have hsecond : RuleText.parse " c = 'AND x' " = .ok
      (.node .eq (.operand "c") (.operand "'AND x'")) := by decide +kernel
    simp [hfirst, hsecond]
  obtain ⟨hand, hor⟩ := joined_answers_combined ["a=1 OR  b=2", " c = 'AND x' ", "a=1 OR  b=2"]
    (by simp) hread (by decide +kernel)
  exact ⟨hand, hor (by decide +kernel)⟩

end Rulebook.Combination
