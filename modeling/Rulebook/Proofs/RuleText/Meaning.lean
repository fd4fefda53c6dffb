import Rulebook.Proofs.Conclusion
import Rulebook.Proofs.RuleText.Parts

/-! What a rule text means: each clause needs an atom that holds, and every atom has to have a
value. -/

namespace Rulebook.RuleText
open Answer

def atomAnswer (c : Context) (p : List Char) : Answer :=
  parse (String.ofList p) >>= Tree.evaluate c

theorem evaluate_node (c : Context) (op : Operator) (l r : Tree) :
    (Tree.node op l r).evaluate c = apply op (l.evaluate c) (r.evaluate c) := rfl

theorem joinAll_eq_ok (op : Operator) (hop : op.isConnective) (rs : List (Except Fault Tree))
    (t : Tree) (h : joinAll op rs = .ok t) :
    (∀ r ∈ rs, ∃ u, r = .ok u) ∧
    ∀ c, (∀ r ∈ rs, IsBoolean (r >>= Tree.evaluate c)) →
      t.evaluate c = conclude op (rs.map (· >>= Tree.evaluate c)) := by
  induction rs using List.reverseRecOn generalizing t with
  | nil => cases h
  | append_singleton rs r ih =>
    by_cases hne : rs = []
    · subst hne
      have hr : r = .ok t := h
      subst hr
      refine ⟨by simp, fun c hb => ?_⟩
      have hb := hb (.ok t) (by simp)
      exact (conclude_singleton op _ hb).symm
    · rw [joinAll_append op rs r hne] at h
      obtain ⟨a, b, ha, rfl, rfl⟩ := join_eq_ok h
      obtain ⟨hok, heval⟩ := ih a ha
      refine ⟨fun r hr => ?_, fun c hb => ?_⟩
      · rcases List.mem_append.mp hr with hr | hr
        · exact hok r hr
        · exact ⟨b, List.mem_singleton.mp hr⟩
      · have hrs := heval c fun r hr => hb r (by simp [hr])
        have hr := conclude_singleton op _ (hb (.ok b) (by simp))
        rw [List.map_append, conclude_append op hop, ← hrs, List.map_singleton, hr]
        exact evaluate_node c op a b

theorem isBoolean_readAtom (c : Context) (p : List Char) :
    IsBoolean (readAtom p >>= Tree.evaluate c) := by
  intro v hv
  cases ht : readAtom p with
  | error f => rw [ht] at hv; cases hv
  | ok t =>
    rw [ht] at hv
    obtain ⟨r, -, hr, -⟩ := comparison?_eq_some (readAtom_eq_ok.mp ht)
    obtain ⟨op, word, right, rfl, -⟩ := comparisonHere?_eq_some hr
    exact isBoolean_apply op _ _ v hv

theorem readClause_eq_ok {p : List Char} {t : Tree} (c : Context) (h : readClause p = .ok t) :
    t.evaluate c = conclude .or ((parts .or p).map fun q => readAtom q >>= Tree.evaluate c) := by
  have heval := (joinAll_eq_ok .or rfl _ t h).2 c
  rw [heval, List.map_map]
  · rfl
  · intro r hr
    obtain ⟨q, -, rfl⟩ := List.mem_map.mp hr
    exact isBoolean_readAtom c q

theorem tree_eq_ok {cs : List Char} {t : Tree} (c : Context) (h : tree cs = .ok t) :
    t.evaluate c = conclude .and ((parts .and cs).map fun p =>
      conclude .or ((parts .or p).map fun q => readAtom q >>= Tree.evaluate c)) := by
  rw [tree_eq_joinAll] at h
  obtain ⟨hok, heval⟩ := joinAll_eq_ok .and rfl _ t h
  have hclause : ∀ p ∈ parts .and cs, readClause p >>= Tree.evaluate c =
      conclude .or ((parts .or p).map fun q => readAtom q >>= Tree.evaluate c) := by
    intro p hp
    obtain ⟨u, hu⟩ := hok (readClause p) (List.mem_map.mpr ⟨p, hp, rfl⟩)
    rw [hu]
    exact readClause_eq_ok c hu
  rw [heval c, List.map_map]
  · congr 1
    exact List.map_congr_left hclause
  · intro r hr
    obtain ⟨p, hp, rfl⟩ := List.mem_map.mp hr
    rw [hclause p hp]
    exact isBoolean_conclude .or _

theorem evaluate_eq_conclude (rule : String) (t : Tree) (c : Context)
    (h : parse rule = .ok t) :
    t.evaluate c = conclude .and ((parts .and (normalChars rule.toList)).map fun clause =>
      conclude .or ((parts .or clause).map (atomAnswer c))) := by
  have hnormal := normalChars_isNormal rule.toList
  rw [tree_eq_ok c h]
  congr 1
  refine List.map_congr_left fun clause hclause => ?_
  congr 1
  refine List.map_congr_left fun p hp => ?_
  rw [atomAnswer, parse_atom hnormal (mem_atoms.mpr ⟨clause, hclause, hp⟩)]

def answer (c : Context) (rule : String) : Answer := parse rule >>= Tree.evaluate c

theorem isBoolean_answer (c : Context) (rule : String) : IsBoolean (answer c rule) := by
  intro v hv
  cases ht : parse rule with
  | error f => rw [answer, ht] at hv; cases hv
  | ok t =>
    rw [answer, ht] at hv
    exact isBoolean_conclude .and _ v ((evaluate_eq_conclude _ t c ht).symm.trans hv)

theorem holds_atomAnswer (c : Context) (p : List Char) :
    holds (atomAnswer c p) = decide (atomAnswer c p = .ok (.boolean true)) := by
  have hb : IsBoolean (atomAnswer c p) := isBoolean_answer c (String.ofList p)
  rw [Bool.eq_iff_iff, hb.holds_iff, decide_eq_true_iff]

/-- A rule fails with the first fault of its atoms, in the order of its text. If they all have
values, it holds just if every clause has an atom that is true. -/
theorem evaluate_parsed (rule : String) (t : Tree) (c : Context) (h : parse rule = .ok t) :
    t.evaluate c =
      match (atoms (normalChars rule.toList)).findSome? fun p => fault? (atomAnswer c p) with
      | some f => .error f
      | none => .ok (.boolean ((parts .and (normalChars rule.toList)).all fun clause =>
          (parts .or clause).any fun p => atomAnswer c p = .ok (.boolean true))) := by
  rw [evaluate_eq_conclude rule t c h]
  generalize normalChars rule.toList = cs
  have hjoined := conclude_and_or ((parts .and cs).map fun clause =>
    (parts .or clause).map (atomAnswer c))
  have hflat : ((parts .and cs).map fun clause => (parts .or clause).map (atomAnswer c)).flatten =
      (atoms cs).map (atomAnswer c) := by
    rw [atoms, List.map_flatMap, List.flatMap_def]
  have hall : (((parts .and cs).map fun clause => (parts .or clause).map (atomAnswer c)).all
      fun rs => rs.any holds) = (parts .and cs).all fun clause =>
        (parts .or clause).any fun p => atomAnswer c p = .ok (.boolean true) := by
    rw [List.all_map]
    refine List.all_congr rfl fun clause => ?_
    rw [Function.comp_apply, List.any_map]
    exact List.any_congr rfl fun p => holds_atomAnswer c p
  rw [List.map_map, hflat, hall, List.findSome?_map] at hjoined
  exact hjoined

theorem evaluate_parsed_mixed : ∃ t, parse "a=0 OR b>2  AND AND='x y' OR c<1" = .ok t ∧
    t.evaluate (.ofList [("AND", .text "x y"), ("a", .number (.ofInt 0)), ("b", .number (.ofInt 1)),
      ("c", .number (.ofInt 5))]) = .ok (.boolean true) := by
  have h : parse "a=0 OR b>2  AND AND='x y' OR c<1" = .ok
      (.node .and
        (.node .or (.node .eq (.operand "a") (.operand "0")) (.node .gt (.operand "b") (.operand "2")))
        (.node .or (.node .eq (.operand "AND") (.operand "'x y'"))
          (.node .lt (.operand "c") (.operand "1")))) := by decide +kernel
  exact ⟨_, h, (evaluate_parsed _ _ _ h).trans (by decide +kernel)⟩

end Rulebook.RuleText
