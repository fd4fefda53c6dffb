import Rulebook.Proofs.Combination

/-! What a combination keeps of a list of texts: those that are rules, each once, in the order in
which they occur first. -/

namespace Rulebook.Combination
variable {rules texts : List String}

/-- The texts that a combination keeps of a list. This says which they are, not how they are
found, and there is one such list only. -/
structure Kept (rules texts : List String) : Prop where
  nodup : texts.Nodup
  mem : ∀ s, s ∈ texts ↔ s ∈ rules ∧ ∃ t, RuleText.parse s = .ok t
  ordered : texts.Pairwise fun a b => rules.idxOf a < rules.idxOf b

theorem Kept.unique {others : List String} (h : Kept rules texts) (h' : Kept rules others) :
    texts = others := by
  have hperm : texts.Perm others :=
    (List.perm_ext_iff_of_nodup h.nodup h'.nodup).mpr fun s => (h.mem s).trans (h'.mem s).symm
  exact hperm.eq_of_pairwise (fun _ _ _ _ hab hba => (Nat.lt_asymm hab hba).elim) h.ordered
    h'.ordered

theorem pairwise_distinct (rules : List String) :
    (distinct rules).Pairwise fun s t => rules.idxOf s < rules.idxOf t := by
  induction rules with
  | nil => exact .nil
  | cons x r ih =>
    rw [distinct, List.pairwise_cons]
    constructor
    · intro t ht
      have hne : x ≠ t := by
        rintro rfl
        simp at ht
      simp [List.idxOf_cons_ne _ hne]
    · refine (ih.filter _).imp_of_mem fun hs ht hlt => ?_
      have hs := (List.mem_filter.mp hs).2
      have ht := (List.mem_filter.mp ht).2
      rw [List.idxOf_cons_ne _ (by simpa using Ne.symm (bne_iff_ne.mp hs)),
        List.idxOf_cons_ne _ (by simpa using Ne.symm (bne_iff_ne.mp ht))]
      exact Nat.succ_lt_succ hlt

/-- The kept texts as a combination finds them. -/
def readable (rules : List String) : List String :=
  (distinct rules).filter fun s => (RuleText.parse s).isOk

theorem mem_readable {s : String} :
    s ∈ readable rules ↔ s ∈ rules ∧ ∃ t, RuleText.parse s = .ok t := by
  have hread : (RuleText.parse s).isOk ↔ ∃ t, RuleText.parse s = .ok t := by
    cases RuleText.parse s <;> simp [Except.isOk, Except.toBool]
  rw [readable, List.mem_filter, mem_distinct, hread]

theorem kept_readable (rules : List String) : Kept rules (readable rules) := by
  have hordered : (readable rules).Pairwise fun a b => rules.idxOf a < rules.idxOf b :=
    (pairwise_distinct rules).filter _
  exact ⟨hordered.imp fun hlt heq => by rw [heq] at hlt; exact lt_irrefl _ hlt,
    fun s => mem_readable, hordered⟩

theorem kept_iff : Kept rules texts ↔ readable rules = texts :=
  ⟨fun h => (kept_readable rules).unique h, fun h => h ▸ kept_readable rules⟩

theorem map_ok_trees (rules : List String) :
    (trees rules).map Except.ok = (readable rules).map RuleText.parse := by
  unfold trees readable
  induction distinct rules with
  | nil => rfl
  | cons s r ih =>
    cases hs : RuleText.parse s with
    | error f =>
      have hskip : (RuleText.parse s).isOk = false := by
        rw [hs]
        rfl
      rw [List.filterMap_cons_none (by rw [hs]; rfl), List.filter_cons_of_neg (by simp [hskip]), ih]
    | ok t =>
      rw [List.filterMap_cons_some (by rw [hs]; rfl), List.filter_cons_of_pos (by rw [hs]; rfl),
        List.map_cons, List.map_cons, ih, hs]

theorem Kept.trees_eq (h : Kept rules texts) :
    (trees rules).map Except.ok = texts.map RuleText.parse := by
  rw [map_ok_trees, kept_iff.mp h]

theorem Kept.mem_trees (h : Kept rules texts) {t : Tree} :
    t ∈ trees rules ↔ ∃ s ∈ texts, RuleText.parse s = .ok t := by
  have hmem : t ∈ trees rules ↔ Except.ok (ε := Fault) t ∈ (trees rules).map Except.ok := by
    simp
  rw [hmem, h.trees_eq, List.mem_map]

theorem Kept.length_trees (h : Kept rules texts) : (trees rules).length = texts.length := by
  simpa using congrArg List.length h.trees_eq

theorem Kept.trees_eq_nil_iff (h : Kept rules texts) : trees rules = [] ↔ texts = [] := by
  rw [← List.length_eq_zero_iff, h.length_trees, List.length_eq_zero_iff]

end Rulebook.Combination
