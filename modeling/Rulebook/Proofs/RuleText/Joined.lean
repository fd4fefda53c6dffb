import Mathlib.Data.List.Induction
import Rulebook.Proofs.RuleText.Meaning
import Rulebook.Proofs.RuleText.Words

/-! Rule texts with a connective between them, read as one text. Its parts are the parts of all,
and so it concludes from their answers. -/

namespace Rulebook.RuleText
open Answer

theorem normalChars_ne_nil_of_parse {rule : String} (h : ∃ t, parse rule = .ok t) :
    normalChars rule.toList ≠ [] := by
  obtain ⟨t, h⟩ := h
  intro hn
  rw [parse, hn, tree_of_none rfl rfl] at h
  cases h

variable {op : Operator} {sep : String}

theorem joined_induction {motive : List String → List Char → Prop} (hsep : sep.toList = joint op)
    (rules : List String) (hne : rules ≠ []) (hword : ∀ s ∈ rules, normalChars s.toList ≠ [])
    (one : ∀ s, motive [s] (normalChars s.toList))
    (more : ∀ rs cs s, motive rs cs → motive (rs ++ [s]) (cs ++ joint op ++ normalChars s.toList)) :
    motive rules (normalChars (sep.intercalate rules).toList) := by
  suffices h : normalChars (sep.intercalate rules).toList ≠ [] ∧
      motive rules (normalChars (sep.intercalate rules).toList) from h.2
  induction rules using List.reverseRecOn with
  | nil => exact absurd rfl hne
  | append_singleton rs s ih =>
    have hs : normalChars s.toList ≠ [] := hword s (by simp)
    by_cases hrs : rs = []
    · subst hrs
      rw [List.nil_append, String.intercalate_singleton]
      exact ⟨hs, one s⟩
    · obtain ⟨hcs, hmotive⟩ := ih hrs fun s hm => hword s (List.mem_append_left _ hm)
      have htext : (sep.intercalate (rs ++ [s])).toList =
          (sep.intercalate rs).toList ++ joint op ++ s.toList := by
        rw [String.intercalate_append_of_ne_nil hrs (by simp), String.intercalate_singleton,
          String.toList_append, String.toList_append, hsep]
      rw [htext, normalChars_joint op _ _ hcs hs]
      exact ⟨List.append_ne_nil_of_right_ne_nil _ hs, more rs _ s hmotive⟩

theorem parts_joined (hsep : sep.toList = joint op) (rules : List String) (hne : rules ≠ [])
    (hword : ∀ s ∈ rules, normalChars s.toList ≠ [])
    (hstart : ∀ s ∈ rules, ¬ op.symbol.toList ++ [' '] <+: normalChars s.toList) :
    parts op (normalChars (sep.intercalate rules).toList) =
      rules.flatMap fun s => parts op (normalChars s.toList) := by
  refine joined_induction
    (motive := fun rs cs => (∀ s ∈ rs, ¬ op.symbol.toList ++ [' '] <+: normalChars s.toList) →
      parts op cs = rs.flatMap fun s => parts op (normalChars s.toList))
    hsep rules hne hword (fun s _ => by simp) (fun rs cs s ih hs => ?_) hstart
  have hrs := ih fun s hm => hs s (List.mem_append_left _ hm)
  rw [parts_joint (hs s (by simp)), hrs, List.flatMap_append, List.flatMap_singleton]

theorem mem_words_joined (hsep : sep.toList = joint op) (rules : List String) (hne : rules ≠ [])
    (hword : ∀ s ∈ rules, normalChars s.toList ≠ []) {w : List Char}
    (hw : w ∈ words (normalChars (sep.intercalate rules).toList)) :
    w = op.symbol.toList ∨ ∃ s ∈ rules, w ∈ words (normalChars s.toList) := by
  refine joined_induction
    (motive := fun rs cs => w ∈ words cs →
      w = op.symbol.toList ∨ ∃ s ∈ rs, w ∈ words (normalChars s.toList))
    hsep rules hne hword (fun s h => .inr ⟨s, by simp, h⟩) (fun rs cs s ih h => ?_) hw
  rw [words_joint, List.mem_append, List.mem_cons] at h
  rcases h with h | h | h
  · rcases ih h with h | ⟨r, hr, h⟩
    · exact .inl h
    · exact .inr ⟨r, List.mem_append_left _ hr, h⟩
  · exact .inl h
  · exact .inr ⟨s, by simp, h⟩

theorem joinAll_isOk (op : Operator) (rs : List (Except Fault Tree)) (hne : rs ≠ [])
    (hok : ∀ r ∈ rs, ∃ u, r = .ok u) : ∃ t, joinAll op rs = .ok t := by
  induction rs using List.reverseRecOn with
  | nil => exact absurd rfl hne
  | append_singleton rs r ih =>
    obtain ⟨u, rfl⟩ := hok r (by simp)
    by_cases hrs : rs = []
    · subst hrs
      exact ⟨u, rfl⟩
    · obtain ⟨t, ht⟩ := ih hrs fun r hm => hok r (List.mem_append_left _ hm)
      rw [joinAll_append op rs _ hrs, ht]
      exact ⟨.node op t u, rfl⟩

theorem joinAll_flatMap (hop : op.isConnective) (rules : List String)
    (rs : String → List (Except Fault Tree)) (hne : rules ≠ [])
    (hread : ∀ s ∈ rules, ∃ t, parse s = .ok t) (hparse : ∀ s ∈ rules, parse s = joinAll op (rs s))
    (hb : ∀ s ∈ rules, ∀ r ∈ rs s, ∀ c, IsBoolean (r >>= Tree.evaluate c)) :
    ∃ t, joinAll op (rules.flatMap rs) = .ok t ∧
      ∀ c, t.evaluate c = conclude op (rules.map (answer c)) := by
  -- Each rule concludes from its own readings, and the conclusions are concluded once more.
  have hgroup : ∀ s ∈ rules, rs s ≠ [] ∧ (∀ r ∈ rs s, ∃ u, r = .ok u) ∧
      ∀ c, answer c s = conclude op ((rs s).map (· >>= Tree.evaluate c)) := by
    intro s hs
    obtain ⟨t, ht⟩ := hread s hs
    have hjoin : joinAll op (rs s) = .ok t := by rw [← hparse s hs, ht]
    obtain ⟨hok, heval⟩ := joinAll_eq_ok op hop _ t hjoin
    refine ⟨fun hnil => ?_, hok, fun c => ?_⟩
    · rw [hnil] at hjoin
      cases hjoin
    · rw [← heval c fun r hr => hb s hs r hr c, answer, ht]
      rfl
  have hok : ∀ r ∈ rules.flatMap rs, ∃ u, r = .ok u := by
    intro r hr
    obtain ⟨s, hs, hr⟩ := List.mem_flatMap.mp hr
    exact (hgroup s hs).2.1 r hr
  have hflat : rules.flatMap rs ≠ [] := by
    obtain ⟨s, hs⟩ := List.exists_mem_of_ne_nil rules hne
    exact fun hnil => (hgroup s hs).1 (List.flatMap_eq_nil_iff.mp hnil s hs)
  obtain ⟨t, ht⟩ := joinAll_isOk op _ hflat hok
  refine ⟨t, ht, fun c => ?_⟩
  have heval := (joinAll_eq_ok op hop _ t ht).2 c fun r hr => by
    obtain ⟨s, hs, hr⟩ := List.mem_flatMap.mp hr
    exact hb s hs r hr c
  have hmap : (rules.flatMap rs).map (· >>= Tree.evaluate c) =
      (rules.map fun s => (rs s).map (· >>= Tree.evaluate c)).flatten := by
    rw [List.map_flatMap, List.flatMap_def]
  rw [heval, hmap, conclude_flatten op hop, List.map_map]
  congr 1
  exact List.map_congr_left fun s hs => ((hgroup s hs).2.2 c).symm

theorem isBoolean_readClause (c : Context) (p : List Char) :
    IsBoolean (readClause p >>= Tree.evaluate c) := by
  intro v hv
  cases ht : readClause p with
  | error f => rw [ht] at hv; cases hv
  | ok t =>
    rw [ht] at hv
    exact isBoolean_conclude .or _ v ((readClause_eq_ok c ht).symm.trans hv)

theorem parse_joined_and (rules : List String) (hne : rules ≠ [])
    (hread : ∀ s ∈ rules, ∃ t, parse s = .ok t)
    (hstart : ∀ s ∈ rules, ¬ "AND ".toList <+: normalChars s.toList) :
    ∃ t, parse (" AND ".intercalate rules) = .ok t ∧
      ∀ c, t.evaluate c = conclude .and (rules.map (answer c)) := by
  have hword : ∀ s ∈ rules, normalChars s.toList ≠ [] :=
    fun s hs => normalChars_ne_nil_of_parse (hread s hs)
  have hsep : " AND ".toList = joint .and := by decide
  have hparts := parts_joined hsep rules hne hword hstart
  rw [parse, tree_eq_joinAll, hparts, List.map_flatMap]
  refine joinAll_flatMap rfl rules _ hne hread (fun s _ => tree_eq_joinAll _) fun s _ r hr c => ?_
  obtain ⟨p, -, rfl⟩ := List.mem_map.mp hr
  exact isBoolean_readClause c p

theorem parse_joined_or (rules : List String) (hne : rules ≠ [])
    (hread : ∀ s ∈ rules, ∃ t, parse s = .ok t)
    (hand : ∀ s ∈ rules, "AND".toList ∉ words (normalChars s.toList))
    (hstart : ∀ s ∈ rules, ¬ "OR ".toList <+: normalChars s.toList) :
    ∃ t, parse (" OR ".intercalate rules) = .ok t ∧
      ∀ c, t.evaluate c = conclude .or (rules.map (answer c)) := by
  have hword : ∀ s ∈ rules, normalChars s.toList ≠ [] :=
    fun s hs => normalChars_ne_nil_of_parse (hread s hs)
  have hsep : " OR ".toList = joint .or := by decide
  have hjoined : "AND".toList ∉ words (normalChars (" OR ".intercalate rules).toList) := by
    intro hmem
    rcases mem_words_joined hsep rules hne hword hmem with h | ⟨s, hs, h⟩
    · revert h
      decide
    · exact hand s hs h
  have hparts := parts_joined hsep rules hne hword hstart
  rw [parse, tree_eq_readClause _ (cutLast?_eq_none_of_words .and hjoined), readClause,
    hparts, List.map_flatMap]
  refine joinAll_flatMap rfl rules _ hne hread (fun s hs => ?_) fun s _ r hr c => ?_
  · exact tree_eq_readClause _ (cutLast?_eq_none_of_words .and (hand s hs))
  · obtain ⟨p, -, rfl⟩ := List.mem_map.mp hr
    exact isBoolean_readAtom c p

end Rulebook.RuleText
