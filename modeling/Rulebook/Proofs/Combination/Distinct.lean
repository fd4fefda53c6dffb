import Mathlib.Logic.Relation
import Rulebook.Proofs.Combination.Frame
import Rulebook.Proofs.Combination.Kept

/-! Which texts a combination is made of. A copy of an earlier text and a text that is no rule are
read without a trace, so that a combination joins one tree for each distinct rule, in the order in
which the rules occur first. -/

namespace Rulebook.Combination

theorem distinct_append (a b : List String) :
    distinct (a ++ b) = distinct a ++ (distinct b).filter fun s => s ∉ a := by
  induction a with
  | nil => simp [distinct]
  | cons x r ih =>
    have hlater : ((distinct b).filter fun s => s ∉ r).filter (· != x) =
        (distinct b).filter fun s => s ∉ x :: r := by
      rw [List.filter_filter]
      refine List.filter_congr fun s _ => ?_
      by_cases hs : s = x <;> simp [hs]
    rw [List.cons_append, distinct, ih, List.filter_append, hlater]
    rfl

theorem readable_append (a b : List String) :
    readable (a ++ b) = readable a ++ (readable b).filter fun s => s ∉ a := by
  rw [readable, readable, readable, distinct_append, List.filter_append, List.filter_comm]

/-- Puts texts into a list that leave no trace there: a copy of a text that comes before it, or
texts that are no rules. -/
inductive Insertion : List String → List String → Prop
  | copy (before after : List String) (s : String) (h : s ∈ before) :
    Insertion (before ++ after) (before ++ [s] ++ after)
  | unread (before extra after : List String) (h : ∀ s ∈ extra, ∃ f, RuleText.parse s = .error f) :
    Insertion (before ++ after) (before ++ extra ++ after)

theorem readable_insert (before extra after : List String)
    (h : ∀ s ∈ extra, s ∈ before ∨ ∃ f, RuleText.parse s = .error f) :
    readable (before ++ extra ++ after) = readable (before ++ after) := by
  have hearlier : ∀ s ∈ extra, (∃ t, RuleText.parse s = .ok t) → s ∈ before := by
    rintro s hs ⟨t, ht⟩
    refine (h s hs).resolve_right ?_
    rintro ⟨f, hf⟩
    rw [ht] at hf
    cases hf
  have hextra : ((readable extra).filter fun s => s ∉ before) = [] := by
    rw [List.filter_eq_nil_iff]
    intro s hs
    obtain ⟨hmem, hread⟩ := mem_readable.mp hs
    simpa using hearlier s hmem hread
  have hafter : ((readable after).filter fun s => s ∉ before ++ extra) =
      (readable after).filter fun s => s ∉ before := by
    refine List.filter_congr fun s hs => ?_
    have hread := (mem_readable.mp hs).2
    have hiff : s ∈ before ++ extra ↔ s ∈ before := by
      rw [List.mem_append]
      exact ⟨fun hmem => hmem.elim id fun hmem => hearlier s hmem hread, .inl⟩
    simp only [hiff]
  rw [readable_append, readable_append before extra, hextra, hafter, List.append_nil,
    readable_append]

theorem Insertion.readable_eq {rules rules' : List String} (h : Insertion rules rules') :
    readable rules' = readable rules := by
  cases h with
  | copy before after s h =>
    exact readable_insert before [s] after fun x hx => .inl (List.mem_singleton.mp hx ▸ h)
  | unread before extra after h =>
    exact readable_insert before extra after fun s hs => .inr (h s hs)

theorem combine_congr {op : Operator} {rules rules' : List String}
    (h : readable rules' = readable rules) : combine op rules' = combine op rules := by
  have hmap : (trees rules').map Except.ok = (trees rules).map (Except.ok (ε := Fault)) := by
    rw [map_ok_trees, map_ok_trees, h]
  rw [combine, combine, List.map_inj_right (fun _ _ => Except.ok.inj) |>.mp hmap]

theorem combine_insertions {op : Operator} {rules rules' : List String}
    (h : Relation.ReflTransGen Insertion rules rules') : combine op rules' = combine op rules := by
  induction h with
  | refl => rfl
  | tail _ hstep ih => rw [combine_congr hstep.readable_eq, ih]

theorem combine_eq_error_iff {op : Operator} {rules : List String} {f : Fault} :
    combine op rules = .error f ↔
      f = .nothingToCombine ∧ ∀ s ∈ rules, ∃ g, RuleText.parse s = .error g := by
  have hnone : trees rules = [] ↔ ∀ s ∈ rules, ∃ g, RuleText.parse s = .error g := by
    rw [(kept_readable rules).trees_eq_nil_iff, List.eq_nil_iff_forall_not_mem]
    refine forall_congr' fun s => ?_
    rw [mem_readable, not_and]
    refine imp_congr_right fun _ => ?_
    cases RuleText.parse s <;> simp
  rw [combine, balanced_eq_error_iff, hnone, and_comm]

/-- Copies and texts that are no rules leave no trace in a combination, wherever they are put into
a list. A combination fails only where no text is a rule. Otherwise its subtrees are what the
distinct rules are read as, each once, in the order in which they occur first. -/
theorem combination_distinct (op : Operator) (rules : List String) :
    (∀ rules', Relation.ReflTransGen Insertion rules rules' →
      combine op rules' = combine op rules) ∧
    (∀ f, combine op rules = .error f ↔
      f = .nothingToCombine ∧ ∀ s ∈ rules, ∃ g, RuleText.parse s = .error g) ∧
    ∀ t, combine op rules = .ok t → ∃ (frame : Frame) (texts : List String),
      t = frame.tree op ∧ frame.trees.map .ok = texts.map RuleText.parse ∧ texts.Nodup ∧
      (∀ s, s ∈ texts ↔ s ∈ rules ∧ ∃ u, RuleText.parse s = .ok u) ∧
      texts.Pairwise fun a b => rules.idxOf a < rules.idxOf b := by
  refine ⟨fun rules' => combine_insertions, fun f => combine_eq_error_iff, fun t ht => ?_⟩
  have hne : trees rules ≠ [] := by
    intro hnil
    rw [combine, hnil, balanced] at ht
    cases ht
  obtain ⟨frame, hframe, htrees, -⟩ := exists_frame op (trees rules) hne
  obtain rfl : frame.tree op = t := Except.ok.inj (hframe.symm.trans ht)
  have hkept := kept_readable rules
  exact ⟨frame, readable rules, rfl, by rw [htrees, hkept.trees_eq], hkept.nodup, hkept.mem,
    hkept.ordered⟩

theorem combination_distinct_padded :
    combine .or ["a=1", "", "nonsense", "b>2", "a=1"] = combine .or ["a=1", "b>2"] ∧
    combine .or ["", "nonsense"] = .error .nothingToCombine ∧
    ∃ (frame : Frame) (texts : List String),
      combine .or ["a=1", "b>2"] = .ok (frame.tree .or) ∧ texts.Nodup ∧ "b>2" ∈ texts := by
  have hunread : ∀ s ∈ ["", "nonsense"], ∃ f, RuleText.parse s = .error f :=
    List.forall_mem_cons.mpr ⟨⟨.unreadable "", by decide +kernel⟩,
      List.forall_mem_singleton.mpr ⟨.unreadable "nonsense", by decide +kernel⟩⟩
  have hpadded : Relation.ReflTransGen Insertion ["a=1", "b>2"]
      ["a=1", "", "nonsense", "b>2", "a=1"] :=
    .tail (.single (.copy ["a=1", "b>2"] [] "a=1" (by decide)))
      (.unread ["a=1"] ["", "nonsense"] ["b>2", "a=1"] hunread)
  have hcombined : combine .or ["a=1", "b>2"] = .ok (.node .or
      (.node .eq (.operand "a") (.operand "1")) (.node .gt (.operand "b") (.operand "2"))) := by
    decide +kernel
  obtain ⟨frame, texts, ht, -, hnodup, hmem, -⟩ := (combination_distinct .or _).2.2 _ hcombined
  have hlast : "b>2" ∈ texts := (hmem _).mpr ⟨by simp,
    .node .gt (.operand "b") (.operand "2"), by decide +kernel⟩
  exact ⟨(combination_distinct .or _).1 _ hpadded,
    ((combination_distinct .or _).2.1 _).mpr ⟨rfl, hunread⟩,
    frame, texts, hcombined.trans (congrArg Except.ok ht), hnodup, hlast⟩

end Rulebook.Combination
