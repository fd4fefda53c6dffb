import Rulebook.Combination
import Rulebook.Proofs.RuleText.Grammar

/-! What a combination is made of: the operands of its rules, in order. -/

namespace Rulebook.Combination

theorem balanced_split (op : Operator) (ts : List Tree) (h : 2 ≤ ts.length) :
    ∃ ls rs, ts = ls ++ rs ∧ (rs.length = ls.length ∨ rs.length = ls.length + 1) ∧
      balanced op ts = RuleText.join op (balanced op ls) (balanced op rs) := by
  match ts with
  | a :: b :: r =>
    refine ⟨_, _, (List.take_append_drop ((r.length + 2) / 2) _).symm, ?_, ?_⟩
    · simp only [List.length_take, List.length_drop, List.length_cons]
      omega
    · rw [balanced]
      rfl

/-- What holds of a single tree, and passes from two sides to their node, holds of a combination. -/
theorem balanced_halves (op : Operator) {motive : List Tree → Tree → Prop} (ts : List Tree)
    (hne : ts ≠ []) (one : ∀ u, motive [u] u)
    (node : ∀ ls rs l r, rs.length = ls.length ∨ rs.length = ls.length + 1 →
      motive ls l → motive rs r → motive (ls ++ rs) (.node op l r)) :
    ∃ t, balanced op ts = .ok t ∧ motive ts t := by
  induction hn : ts.length using Nat.strong_induction_on generalizing ts with
  | _ n ih =>
    have hpos := List.length_pos_iff.mpr hne
    by_cases hone : ts.length = 1
    · obtain ⟨u, rfl⟩ := List.length_eq_one_iff.mp hone
      exact ⟨u, by rw [balanced], one u⟩
    · obtain ⟨ls, rs, rfl, hsize, hjoin⟩ := balanced_split op ts (by omega)
      rw [List.length_append] at hn hpos hone
      have side (us : List Tree) (hpos : 0 < us.length) (hlt : us.length < n) :
          ∃ u, balanced op us = .ok u ∧ motive us u :=
        ih us.length hlt us (List.ne_nil_of_length_pos hpos) rfl
      obtain ⟨l, hl, hml⟩ := side ls (by omega) (by omega)
      obtain ⟨r, hr, hmr⟩ := side rs (by omega) (by omega)
      refine ⟨.node op l r, ?_, node ls rs l r hsize hml hmr⟩
      rw [hjoin, hl, hr]
      rfl

theorem balanced_isOk (op : Operator) (ts : List Tree) (hne : ts ≠ []) :
    ∃ t, balanced op ts = .ok t := by
  obtain ⟨t, ht, -⟩ := balanced_halves op (motive := fun _ _ => True) ts hne
    (fun _ => trivial) fun _ _ _ _ _ _ _ => trivial
  exact ⟨t, ht⟩

theorem balanced_eq_error_iff {op : Operator} {ts : List Tree} {f : Fault} :
    balanced op ts = .error f ↔ ts = [] ∧ f = .nothingToCombine := by
  by_cases hne : ts = []
  · subst hne
    simp [balanced, eq_comm]
  · obtain ⟨t, ht⟩ := balanced_isOk op ts hne
    simp [ht, hne]

/-- The sides of a combination need not be told apart by their sizes. -/
theorem balanced_induction {op : Operator} {motive : List Tree → Tree → Prop} (ts : List Tree)
    (t : Tree) (h : balanced op ts = .ok t) (one : ∀ u, motive [u] u)
    (node : ∀ ls rs l r, motive ls l → motive rs r → motive (ls ++ rs) (.node op l r)) :
    motive ts t := by
  have hne : ts ≠ [] := by
    rintro rfl
    simp [balanced] at h
  obtain ⟨u, hu, hmotive⟩ := balanced_halves op ts hne one fun ls rs l r _ => node ls rs l r
  rw [h] at hu
  cases hu
  exact hmotive

theorem balanced_operands (op : Operator) (ts : List Tree) (t : Tree)
    (h : balanced op ts = .ok t) : t.operands = ts.flatMap Tree.operands := by
  refine balanced_induction (motive := fun ts t => t.operands = ts.flatMap Tree.operands) ts t h
    (fun u => by simp) (fun ls rs l r hl hr => ?_)
  rw [Tree.operands, hl, hr, List.flatMap_append]

theorem mem_distinct {s : String} {rules : List String} : s ∈ distinct rules ↔ s ∈ rules := by
  induction rules with
  | nil => rfl
  | cons x r ih =>
    rw [distinct, List.mem_cons, List.mem_cons, List.mem_filter, ih]
    by_cases hx : s = x
    · simp [hx]
    · simp [hx]

theorem mem_trees {rules : List String} {t : Tree} (h : t ∈ trees rules) :
    ∃ rule, RuleText.parse rule = .ok t := by
  obtain ⟨rule, -, hr⟩ := List.mem_filterMap.mp h
  refine ⟨rule, ?_⟩
  cases hp : RuleText.parse rule with
  | error f => simp [hp, Except.toOption] at hr
  | ok u => simpa [hp, Except.toOption] using hr

theorem combine_operands (op : Operator) (rules : List String) (t : Tree)
    (h : combine op rules = .ok t) : "" ∉ t.operands := by
  rw [balanced_operands op _ t h, List.mem_flatMap]
  rintro ⟨u, hu, ho⟩
  obtain ⟨rule, hrule⟩ := mem_trees hu
  exact RuleText.parse_operands rule u hrule ho

end Rulebook.Combination
