import Rulebook.Proofs.Literal
import Rulebook.Proofs.RuleText.Layout
import Rulebook.Proofs.Tree.FirstFault
import Rulebook.Proofs.Tree.ReadSet

/-! The fields of a rule. What stands on the left of its comparisons is a field. What stands on the
right is a literal, unless it is a run of digits that no number is large enough for. -/

namespace Rulebook.RuleText
open Rulebook.Tree

def IsOversized (s : String) : Prop :=
  IsNumeral s ∧ Magnitude.overflow ≤ Decimal.ofDigitChars s.toList

theorem IsField.read? {s : String} (h : IsField s) : Literal.read? s = none := by
  obtain ⟨c, r, hr⟩ := List.exists_cons_of_ne_nil h.1
  have hc : isLetter c := h.2 c (by simp [hr])
  refine Literal.read?_eq_none_of_head (c := c) (by simp [hr]) (fun hd => ?_) fun hother => ?_
  · rw [isLetter_of_isDigit hd] at hc
    cases hc
  · simp only [List.mem_cons, List.not_mem_nil, or_false] at hother
    rcases hother with rfl | rfl | rfl | rfl <;> revert hc <;> decide

theorem read?_right_eq_none_iff {right : String}
    (h : IsNumeral right ∨ ∃ inner, IsQuotation right inner) :
    Literal.read? right = none ↔ IsOversized right := by
  rcases h with h | ⟨inner, h⟩
  · rw [Literal.read?_digits_eq_none_iff h.1 h.2, IsOversized, and_iff_right h]
  · have hnot : ¬ IsOversized right := by
      rintro ⟨⟨-, hd⟩, -⟩
      have hquote := hd '\'' (by simp [h.text])
      revert hquote
      decide
    simp [Literal.read?_quoted h.text, hnot]

theorem IsAndChain.isComparison {t : Tree} (ht : IsAndChain t) {op : Operator} {l r : Tree}
    (hop : op.isConnective = false) (hmem : .node op l r ∈ t.postorder) :
    IsComparison (.node op l r) := by
  refine ht.node_induction
    (motive := fun t => .node op l r ∈ t.postorder → IsComparison (.node op l r))
    (fun u hu hm => ?_) (fun op' l' r' hop' hl hr hm => ?_) hmem
  · have hu' := hu
    obtain @⟨cop, field, right, -, -, -⟩ := hu
    have hroot : Tree.node op l r = .node cop (.operand field) (.operand right) := by
      simpa [postorder] using hm
    rw [hroot]
    exact hu'
  · rw [postorder, List.mem_append, List.mem_append, List.mem_singleton] at hm
    rcases hm with (hm | hm) | hm
    · exact hl hm
    · exact hr hm
    · cases hm
      rw [hop] at hop'
      cases hop'

theorem IsAndChain.isField_of_mem_subjects {t : Tree} (ht : IsAndChain t) :
    ∀ x ∈ t.subjects, IsField x := by
  refine ht.node_induction (motive := fun t => ∀ x ∈ t.subjects, IsField x)
    (fun u hu => ?_) (fun op l r hop hl hr => ?_)
  · obtain @⟨op, field, right, hop, hfield, -⟩ := hu
    simpa [subjects, hop, operands] using hfield
  · intro x hx
    rw [subjects, if_pos hop, List.mem_append] at hx
    exact hx.elim (hl x) (hr x)

theorem IsAndChain.mem_fields_iff {t : Tree} (ht : IsAndChain t) (x : String) :
    x ∈ t.fields ↔ x ∈ t.subjects ∨ x ∈ t.operands ∧ IsOversized x := by
  refine ht.node_induction
    (motive := fun t => x ∈ t.fields ↔ x ∈ t.subjects ∨ x ∈ t.operands ∧ IsOversized x)
    (fun u hu => ?_) (fun op l r hop hl hr => ?_)
  · obtain @⟨op, field, right, hop, hfield, hright⟩ := hu
    have hread := hfield.read?
    have hoversized := read?_right_eq_none_iff hright
    rw [mem_fields]
    simp only [operands, subjects, hop, Bool.false_eq_true, if_false, List.singleton_append,
      List.mem_cons, List.not_mem_nil, or_false]
    grind
  · rw [mem_fields_node, hl, hr, subjects, if_pos hop, operands, List.mem_append, List.mem_append]
    grind

/-- In a rule the left side of a comparison is a word and a field. Its right side is a literal
unless it is oversized, and then it is a field as well. There are no other fields. So if the words
are bound, only an oversized number can be missed. -/
theorem parsed_fields (rule : String) (t : Tree) (h : parse rule = .ok t) :
    (∀ op l r, .node op l r ∈ t.postorder → op.isConnective = false →
      ∃ field right, l = .operand field ∧ r = .operand right ∧
        IsField field ∧ Literal.read? field = none ∧
          (Literal.read? right = none ↔ IsOversized right)) ∧
    (∀ x, x ∈ t.fields ↔ x ∈ t.subjects ∨ x ∈ t.operands ∧ IsOversized x) ∧
    (∀ x ∈ t.subjects, IsField x) ∧
    ∀ c, (∀ x ∈ t.subjects, c.get? x ≠ none) → ∀ x, t.evaluate c = .error (.unresolved x) →
      x ∈ t.operands ∧ IsOversized x ∧ c.get? x = none := by
  have ht := isAndChain_of_parse rule t h
  refine ⟨fun op l r hmem hop => ?_, ht.mem_fields_iff, ht.isField_of_mem_subjects,
    fun c hbound x hx => ?_⟩
  · obtain @⟨_, field, right, -, hfield, hright⟩ := ht.isComparison hop hmem
    exact ⟨field, right, rfl, rfl, hfield, hfield.read?, read?_right_eq_none_iff hright⟩
  · obtain ⟨hmem, hget⟩ := evaluate_unresolved hx
    rcases (ht.mem_fields_iff x).mp hmem with hsubject | ⟨hoperand, hsize⟩
    · exact absurd hget (hbound x hsubject)
    · exact ⟨hoperand, hsize, hget⟩

theorem parsed_fields_mixed : ∃ t, parse "e = 'e' OR AND>12 AND x<=007" = .ok t ∧
    t.fields = ["AND", "e", "x"] ∧ t.subjects = ["e", "AND", "x"] ∧
      ∀ x ∈ t.subjects, IsField x := by
  have h : parse "e = 'e' OR AND>12 AND x<=007" = .ok
      (.node .and
        (.node .or (.node .eq (.operand "e") (.operand "'e'"))
          (.node .gt (.operand "AND") (.operand "12")))
        (.node .le (.operand "x") (.operand "007"))) := by decide +kernel
  exact ⟨_, h, by decide +kernel, by decide, (parsed_fields _ _ h).2.2.1⟩

theorem evaluate_oversized {digits : String} (h : IsOversized digits) (v : Value) :
    ∃ t, parse ("x=" ++ digits) = .ok t ∧ t.subjects = ["x"] ∧ digits ∈ t.fields ∧
      t.evaluate (Context.empty.insert "x" v) = .error (.unresolved digits) := by
  have hread : Literal.read? digits = none := (read?_right_eq_none_iff (.inl h.1)).mpr h
  have hfield : IsField "x" := by decide
  have ht : IsComparison (.node .eq (.operand "x") (.operand digits)) :=
    .mk rfl hfield (.inl h.1)
  have htext : ("x=" ++ digits).toList =
      Layout.compact.write (.node .eq (.operand "x") (.operand digits)) := by
    rw [Layout.compact.write_comparison rfl, String.toList_append]
    rfl
  have hne : digits ≠ "x" := by
    rintro rfl
    have hx := h.1.2 'x' (by decide)
    revert hx
    decide
  have hunbound : (Context.empty.insert "x" v).get? digits = none := by
    rw [Context.get?_insert, if_neg hne]
    rfl
  have hx := Context.resolve_insert_self hfield.read? .empty v
  refine ⟨_, parse_comparison .compact ht (fun hs => by cases hs) htext, rfl,
    mem_fields.mpr ⟨by simp [operands], hread⟩, ?_⟩
  rw [evaluate, evaluate, evaluate, hx, Context.resolve_of_unbound hread hunbound]
  rfl

theorem isOversized_digitChars {n : Nat} (h : Magnitude.overflow ≤ n) :
    IsOversized (String.ofList (Decimal.digitChars n)) := by
  rw [IsOversized, IsNumeral, String.toList_ofList, Decimal.ofDigitChars_digitChars]
  exact ⟨⟨Decimal.digitChars_ne_nil n, fun c => Decimal.isDigit_of_mem_digitChars⟩, h⟩

def tooManyDigits : String := String.ofList (Decimal.digitChars (Nat.pow 10 309))

theorem oversized_is_missed : ∃ t, parse ("x=" ++ tooManyDigits) = .ok t ∧ t.subjects = ["x"] ∧
    tooManyDigits ∈ t.fields ∧ t.evaluate (Context.empty.insert "x" (.boolean true)) =
      .error (.unresolved tooManyDigits) :=
  evaluate_oversized (isOversized_digitChars (by decide +kernel)) (.boolean true)

end Rulebook.RuleText
