import Rulebook.Proofs.Combination.Frame
import Rulebook.Proofs.Combination.Kept
import Rulebook.Proofs.Engine

/-! What an engine takes in can be told from the texts. The tree of a rule has no more levels than
the rule has atoms, and a combination adds the logarithm of the number of its rules. -/

namespace Rulebook

theorem Combination.combine_depth_le (op : Operator) {rules texts : List String} {k : Nat}
    (hkept : Kept rules texts) (hne : texts ≠ [])
    (hk : ∀ s ∈ texts, RuleText.atomCount s ≤ k) :
    ∃ t, combine op rules = .ok t ∧ t.depth ≤ Nat.clog 2 texts.length + k := by
  obtain ⟨f, hf, hjoined, hhalved⟩ :=
    exists_frame op (trees rules) (mt hkept.trees_eq_nil_iff.mp hne)
  have hdepth (t : Tree) (ht : t ∈ f.trees) : t.depth ≤ k := by
    rw [hjoined] at ht
    obtain ⟨s, hs, hread⟩ := hkept.mem_trees.mp ht
    exact (RuleText.depth_le_atoms hread).trans (hk s hs)
  refine ⟨f.tree op, hf, ?_⟩
  rw [← hkept.length_trees, ← hjoined]
  exact hhalved.depth_le op hdepth

namespace Engine

/-- A rule within the length limit is taken in if it has no more atoms than a tree may have levels.
Under a single connective the number of its atoms decides. Rules are combined if their atoms leave
room for the logarithm of their number. A tree that is handed out is the one that is read or
combined without limits. -/
theorem limits_told_by_texts (e : Engine) :
    (∀ rule t, rule.length ≤ e.maxRuleLength → RuleText.parse rule = .ok t →
      (RuleText.atomCount rule ≤ e.depthLimit → (e.parse rule).answer = .ok t) ∧
      ∀ op, op = .and ∨ op = .or →
        (∀ o ∈ RuleText.connectives (RuleText.normalChars rule.toList), o = op) →
        (e.parse rule).answer =
          if RuleText.atomCount rule ≤ e.depthLimit then .ok t
          else .error (.tooLarge .treeDepth (RuleText.atomCount rule) e.depthLimit)) ∧
    (∀ rules op, rules.length ≤ e.maxCombineRules → (∀ s ∈ rules, s.length ≤ e.maxRuleLength) →
      ∀ texts k, Combination.Kept rules texts → texts ≠ [] →
        (∀ s ∈ texts, RuleText.atomCount s ≤ k) → k + Nat.clog 2 texts.length ≤ e.depthLimit →
        ∃ t, (e.combine rules op).answer = .ok t) ∧
    (∀ rule t, (e.parse rule).answer = .ok t → RuleText.parse rule = .ok t) ∧
    ∀ rules op t, (e.combine rules op).answer = .ok t → Combination.combine op rules = .ok t := by
  refine ⟨fun rule t hlength ht => ⟨fun hatoms => ?_, fun op _ hop => ?_⟩, ?_, ?_, ?_⟩
  · have hdepth : t.depth ≤ RuleText.atomCount rule := RuleText.depth_le_atoms ht
    exact (parse_answer_eq_ok e rule t).mpr
      ⟨checkLength_eq_ok.mpr hlength, ht, hdepth.trans hatoms⟩
  · have hdepth : t.depth = RuleText.atomCount rule := RuleText.depth_eq_atoms hop ht
    rw [parse_answer (checkLength_eq_ok.mpr hlength), ht, ← hdepth]
    change e.checkDepth t = _
    rw [checkDepth, ← ite_not, if_congr Nat.not_lt rfl rfl]
  · intro rules op hcount hlengths texts k hkept hne hk hlimit
    obtain ⟨t, ht, hdepth⟩ := Combination.combine_depth_le op hkept hne hk
    have hchecks := And.intro (checkCount_eq_ok.mpr hcount) (checkLengths_eq_ok.mpr hlengths)
    exact ⟨t, (combine_answer_eq_ok e rules op t).mpr ⟨hchecks, ht, by omega⟩⟩
  · intro rule t h
    exact ((parse_answer_eq_ok e rule t).mp h).2.1
  · intro rules op t h
    exact ((combine_answer_eq_ok e rules op t).mp h).2.1

theorem limits_told_by_texts_three :
    (parse ⟨64, 8, 3, false⟩ "a=1 AND b=2 AND c=3 AND d=4").answer =
      .error (.tooLarge .treeDepth 4 3) ∧
    (∃ t, (parse ⟨64, 8, 3, false⟩ "a=1 OR b=2 AND c=3").answer = .ok t ∧
      RuleText.parse "a=1 OR b=2 AND c=3" = .ok t) ∧
    ∃ t, (combine ⟨64, 8, 3, false⟩ ["a=1", "nonsense", "b=2 AND c=3", "a=1"] .or).answer = .ok t ∧
      Combination.combine .or ["a=1", "nonsense", "b=2 AND c=3", "a=1"] = .ok t := by
  obtain ⟨hparse, hcombine, -, hsame⟩ := limits_told_by_texts ⟨64, 8, 3, false⟩
  refine ⟨?_, ?_, ?_⟩
  · have hread : RuleText.parse "a=1 AND b=2 AND c=3 AND d=4" = .ok
        (.node .and (.node .and (.node .and (.node .eq (.operand "a") (.operand "1"))
          (.node .eq (.operand "b") (.operand "2"))) (.node .eq (.operand "c") (.operand "3")))
          (.node .eq (.operand "d") (.operand "4"))) := by decide +kernel
    have hanswer := (hparse _ _ (by decide +kernel) hread).2 .and (.inl rfl) (by decide +kernel)
    exact hanswer.trans (by decide +kernel)
  · have hread : RuleText.parse "a=1 OR b=2 AND c=3" = .ok
        (.node .and (.node .or (.node .eq (.operand "a") (.operand "1"))
          (.node .eq (.operand "b") (.operand "2")))
          (.node .eq (.operand "c") (.operand "3"))) := by decide +kernel
    exact ⟨_, (hparse _ _ (by decide +kernel) hread).1 (by decide +kernel), hread⟩
  · have hkept : Combination.Kept ["a=1", "nonsense", "b=2 AND c=3", "a=1"]
        ["a=1", "b=2 AND c=3"] := Combination.kept_iff.mpr (by decide +kernel)
    obtain ⟨t, ht⟩ := hcombine ["a=1", "nonsense", "b=2 AND c=3", "a=1"] .or (by decide)
      (by decide +kernel) _ 2 hkept (by decide) (by decide +kernel) (by decide +kernel)
    exact ⟨t, ht, hsame _ _ _ ht⟩

end Engine
end Rulebook
