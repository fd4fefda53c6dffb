import Mathlib.Data.List.Chain
import Rulebook.Proofs.RuleText.Cut
import Rulebook.RuleText

/-! Normal texts: what normalizing yields, and what it leaves as it is. Both sides of a cut at a
connective are normal again. -/

namespace Rulebook.RuleText
open Text

/-- The only blanks are spaces, which stand alone, and neither at the start nor at the end. -/
structure IsNormal (cs : List Char) : Prop where
  blank : ∀ c ∈ cs, isBlank c → c = ' '
  single : cs.IsChain fun a b => ¬ (isBlank a ∧ isBlank b)
  head : ∀ c ∈ cs.head?, ¬ isBlank c
  last : ∀ c ∈ cs.getLast?, ¬ isBlank c

theorem isBlank_space : isBlank ' ' := by decide

theorem squeeze_blank (gap : Bool) (cs : List Char) : ∀ c ∈ squeeze gap cs, isBlank c → c = ' ' := by
  induction cs generalizing gap with
  | nil => simp [squeeze]
  | cons d r ih =>
    intro c hc hb
    simp only [squeeze] at hc
    split at hc
    · exact ih true c hc hb
    · next hd =>
      have hmem : c = ' ' ∨ c = d ∨ c ∈ squeeze false r := by
        split at hc <;> simp only [List.mem_cons] at hc
        · exact hc
        · exact .inr hc
      rcases hmem with h | rfl | h
      · exact h
      · exact absurd hb hd
      · exact ih false c h hb

theorem squeeze_single (gap : Bool) (cs : List Char) :
    (squeeze gap cs).IsChain fun a b => ¬ (isBlank a ∧ isBlank b) := by
  induction cs generalizing gap with
  | nil => exact List.IsChain.nil
  | cons d r ih =>
    simp only [squeeze]
    split
    · exact ih true
    · next hd =>
      have hr : (d :: squeeze false r).IsChain fun a b => ¬ (isBlank a ∧ isBlank b) :=
        List.isChain_cons.mpr ⟨fun y _ hy => hd hy.1, ih false⟩
      split
      · exact List.isChain_cons_cons.mpr ⟨fun hy => hd hy.2, hr⟩
      · exact hr

theorem squeeze_last (gap : Bool) (cs : List Char) :
    ∀ c ∈ (squeeze gap cs).getLast?, ¬ isBlank c := by
  induction cs generalizing gap with
  | nil => simp [squeeze]
  | cons d r ih =>
    simp only [squeeze]
    split
    · exact ih true
    · next hd =>
      have hr : ∀ c ∈ (d :: squeeze false r).getLast?, ¬ isBlank c := by
        intro c hc
        rw [List.getLast?_cons] at hc
        cases hl : (squeeze false r).getLast? with
        | none =>
          rw [hl, Option.getD_none, Option.mem_some_iff] at hc
          exact hc ▸ hd
        | some x =>
          rw [hl, Option.getD_some, Option.mem_some_iff] at hc
          exact hc ▸ ih false x hl
      split
      · rw [List.getLast?_cons_cons]
        exact hr
      · exact hr

theorem normalChars_isNormal (cs : List Char) : IsNormal (normalChars cs) where
  blank := squeeze_blank false _
  single := squeeze_single false _
  last := squeeze_last false _
  head := by
    intro c hc
    rw [normalChars] at hc
    cases hd : cs.dropWhile isBlank with
    | nil => simp [hd, squeeze] at hc
    | cons d r =>
      have hb : ¬ isBlank d := by
        have := List.head?_dropWhile_not isBlank cs
        simpa [hd] using this
      have hfirst : (squeeze false (d :: r)).head? = some d := by simp [squeeze, hb]
      rw [hd, hfirst, Option.mem_some_iff] at hc
      exact hc ▸ hb

/-- The second half is about texts that follow a blank. -/
theorem squeeze_eq_self (cs : List Char) (hb : ∀ c ∈ cs, isBlank c → c = ' ')
    (hs : cs.IsChain fun a b => ¬ (isBlank a ∧ isBlank b)) (hl : ∀ c ∈ cs.getLast?, ¬ isBlank c) :
    squeeze false cs = cs ∧
      (cs ≠ [] → (∀ c ∈ cs.head?, ¬ isBlank c) → squeeze true cs = ' ' :: cs) := by
  induction cs with
  | nil => simp [squeeze]
  | cons c r ih =>
    obtain ⟨hc, hr⟩ := List.isChain_cons.mp hs
    have hb' : ∀ x ∈ r, isBlank x → x = ' ' := fun x hx => hb x (List.mem_cons_of_mem c hx)
    have hl' : ∀ x ∈ r.getLast?, ¬ isBlank x := by
      intro x hx
      apply hl x
      cases r with
      | nil => simp at hx
      | cons y r => rwa [List.getLast?_cons_cons]
    obtain ⟨ih, ihgap⟩ := ih hb' hr hl'
    by_cases hcb : isBlank c
    · refine ⟨?_, fun _ hh => absurd hcb (hh c rfl)⟩
      have hcs : c = ' ' := hb c (by simp) hcb
      have hne : r ≠ [] := by
        rintro rfl
        exact hl c rfl hcb
      have hh : ∀ x ∈ r.head?, ¬ isBlank x := fun x hx hxb => hc x hx ⟨hcb, hxb⟩
      subst hcs
      simp [squeeze, isBlank_space, ihgap hne hh]
    · simp [squeeze, hcb, ih]

theorem IsNormal.normalChars_eq {cs : List Char} (h : IsNormal cs) : normalChars cs = cs := by
  have hd : cs.dropWhile isBlank = cs := by
    cases cs with
    | nil => rfl
    | cons c r => exact List.dropWhile_cons_of_neg (h.head c rfl)
  rw [normalChars, hd]
  exact (squeeze_eq_self cs h.blank h.single h.last).1

theorem IsNormal.of_not_blank {cs : List Char} (h : ∀ c ∈ cs, ¬ isBlank c) : IsNormal cs where
  blank c hc hb := absurd hb (h c hc)
  single := by
    induction cs with
    | nil => exact List.IsChain.nil
    | cons c r ih =>
      have hr := ih fun x hx => h x (List.mem_cons_of_mem c hx)
      exact List.isChain_cons.mpr ⟨fun y _ hy => h c (by simp) hy.1, hr⟩
  head c hc := h c (List.mem_of_mem_head? hc)
  last c hc := h c (List.mem_of_mem_getLast? hc)

theorem symbol_not_blank (op : Operator) : ∀ c ∈ op.symbol.toList, ¬ isBlank c := by
  cases op <;> simp [Operator.symbol, isBlank]

theorem squeeze_append_space (gap : Bool) (a b : List Char) :
    squeeze gap (a ++ ' ' :: b) = squeeze gap a ++ squeeze true b := by
  induction a generalizing gap with
  | nil => simp [squeeze, isBlank_space]
  | cons c r ih =>
    rw [List.cons_append, squeeze, squeeze]
    by_cases hc : isBlank c
    · rw [if_pos hc, if_pos hc, ih]
    · rw [if_neg hc, if_neg hc]
      cases gap <;> simp [ih]

theorem squeeze_true (b : List Char) (h : normalChars b ≠ []) :
    squeeze true b = ' ' :: normalChars b := by
  induction b with
  | nil => exact absurd rfl h
  | cons c r ih =>
    by_cases hc : isBlank c
    · have hr : normalChars (c :: r) = normalChars r := by
        rw [normalChars, normalChars, List.dropWhile_cons_of_pos hc]
      rw [hr] at h ⊢
      rw [squeeze, if_pos hc, ih h]
    · rw [normalChars, List.dropWhile_cons_of_neg hc, squeeze, squeeze, if_neg hc, if_neg hc]
      rfl

theorem normalChars_append_space (a b : List Char) (ha : normalChars a ≠ [])
    (hb : normalChars b ≠ []) :
    normalChars (a ++ ' ' :: b) = normalChars a ++ ' ' :: normalChars b := by
  have hdrop : (a ++ ' ' :: b).dropWhile isBlank = a.dropWhile isBlank ++ ' ' :: b := by
    rw [List.dropWhile_append]
    cases hd : a.dropWhile isBlank with
    | nil => exact absurd (by rw [normalChars, hd, squeeze]) ha
    | cons c r => rfl
  rw [normalChars, hdrop, squeeze_append_space, squeeze_true b hb]
  rfl

theorem normalChars_joint (op : Operator) (a b : List Char) (ha : normalChars a ≠ [])
    (hb : normalChars b ≠ []) :
    normalChars (a ++ joint op ++ b) = normalChars a ++ joint op ++ normalChars b := by
  have hsymbol : normalChars op.symbol.toList = op.symbol.toList :=
    (IsNormal.of_not_blank (symbol_not_blank op)).normalChars_eq
  have hne : normalChars op.symbol.toList ≠ [] := by
    rw [hsymbol]
    cases op <;> decide
  have hright := normalChars_append_space op.symbol.toList b hne hb
  have hall := normalChars_append_space a (op.symbol.toList ++ ' ' :: b) ha (by simp [hright])
  rw [hright, hsymbol] at hall
  simpa [joint] using hall

theorem IsNormal.cut {op : Operator} {cs a b : List Char} (h : IsNormal cs)
    (hc : cutLast? (joint op) cs = some (a, b)) :
    IsNormal a ∧ IsNormal b ∧ a ≠ [] ∧ b ≠ [] := by
  have hcs : cs = a ++ ' ' :: (op.symbol.toList ++ ' ' :: b) := by
    simpa [joint] using cutLast?_append hc
  obtain ⟨ha, hb⟩ := cutLast?_within hc
  have hane : a ≠ [] := by
    rintro rfl
    exact h.head ' ' (by simp [hcs]) isBlank_space
  have hbne : b ≠ [] := by
    rintro rfl
    have hend : cs = (a ++ ' ' :: op.symbol.toList) ++ [' '] := by simp [hcs]
    exact h.last ' ' (by rw [hend]; exact List.getLast?_concat) isBlank_space
  -- Either part stands next to a space of the separator, so it has no blank at that end.
  have hsingle := h.single
  rw [hcs, List.isChain_append] at hsingle
  obtain ⟨-, htail, hedge⟩ := hsingle
  refine ⟨⟨?_, h.single.infix ha, ?_, ?_⟩, ⟨?_, h.single.infix hb, ?_, ?_⟩, hane, hbne⟩
  · exact fun c hx => h.blank c (ha.subset hx)
  · intro c hx
    apply h.head c
    rw [hcs, List.head?_append_of_ne_nil _ hane]
    exact hx
  · exact fun c hx hxb => hedge c hx ' ' rfl ⟨hxb, isBlank_space⟩
  · exact fun c hx => h.blank c (hb.subset hx)
  · intro c hx hxb
    rw [← List.cons_append, List.isChain_append] at htail
    have hspace := (List.isChain_cons.mp htail.2.1).1
    exact hspace c hx ⟨isBlank_space, hxb⟩
  · intro c hx
    apply h.last c
    rw [hcs, ← List.cons_append, ← List.append_assoc, List.getLast?_append_of_ne_nil _ (by simp),
      List.getLast?_cons]
    cases hl : b.getLast? with
    | none => simp [hl] at hx
    | some x => simpa [hl] using hx

theorem IsNormal.append {a b : List Char} (ha : IsNormal a) (hb : IsNormal b) :
    IsNormal (a ++ b) where
  blank c hc := (List.mem_append.mp hc).elim (ha.blank c) (hb.blank c)
  single := by
    rw [List.isChain_append]
    exact ⟨ha.single, hb.single, fun x hx y _ hxy => ha.last x hx hxy.1⟩
  head := by
    intro c hc
    cases a with
    | nil => exact hb.head c hc
    | cons x a => exact ha.head c hc
  last := by
    intro c hc
    by_cases hne : b = []
    · rw [hne, List.append_nil] at hc
      exact ha.last c hc
    · rw [List.getLast?_append_of_ne_nil _ hne] at hc
      exact hb.last c hc

theorem IsNormal.joint {a b : List Char} (op : Operator) (ha : IsNormal a) (hb : IsNormal b)
    (hane : a ≠ []) (hbne : b ≠ []) : IsNormal (a ++ joint op ++ b) where
  blank := by
    have hj : ∀ c ∈ RuleText.joint op, isBlank c → c = ' ' := by
      cases op <;> simp [RuleText.joint, Operator.symbol, isBlank]
    intro c hc
    rcases List.mem_append.mp hc with hc | hc
    · rcases List.mem_append.mp hc with hc | hc
      · exact ha.blank c hc
      · exact hj c hc
    · exact hb.blank c hc
  single := by
    have hj : (RuleText.joint op).IsChain fun x y => ¬ (isBlank x ∧ isBlank y) := by
      cases op <;> decide
    rw [List.isChain_append, List.isChain_append]
    refine ⟨⟨ha.single, hj, ?_⟩, hb.single, ?_⟩
    · exact fun x hx y _ hxy => ha.last x hx hxy.1
    · exact fun x _ y hy hxy => hb.head y hy hxy.2
  head := by
    intro c hc
    rw [List.append_assoc, List.head?_append_of_ne_nil _ hane] at hc
    exact ha.head c hc
  last := by
    intro c hc
    rw [List.getLast?_append_of_ne_nil _ hbne] at hc
    exact hb.last c hc

end Rulebook.RuleText
