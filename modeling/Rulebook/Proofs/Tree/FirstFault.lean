import Rulebook.Proofs.Conclusion

/-! The fault of an evaluation. Every node gets its value, both sides before the node itself, and
the first node that has none decides. -/

namespace Rulebook

theorem Context.resolve_eq_error {c : Context} {s : String} {f : Fault}
    (h : c.resolve s = .error f) :
    Literal.read? s = none ∧ c.get? s = none ∧ f = .unresolved s := by
  unfold resolve at h
  split at h
  · cases h
  · next hread =>
    split at h
    · cases h
    · next hget =>
      cases h
      exact ⟨hread, hget, rfl⟩

theorem Context.resolve_of_unbound {c : Context} {s : String} (hread : Literal.read? s = none)
    (hget : c.get? s = none) : c.resolve s = .error (.unresolved s) := by
  simp [resolve, hread, hget]

theorem Context.resolve_insert_self {s : String} (hread : Literal.read? s = none) (c : Context)
    (v : Value) : (c.insert s v).resolve s = .ok v := by
  rw [resolve, hread, get?_insert, if_pos rfl]

theorem Operator.apply_eq_error {op : Operator} {a b : Value} {f : Fault}
    (h : op.apply a b = .error f) :
    op.isOrdering ∧ a.compare? b = none ∧ f = .mismatch op a.kind b.kind := by
  cases op with
  | and | or | eq | ne => cases h
  | lt | le | gt | ge =>
    simp only [apply] at h
    split at h
    · cases h
    · next hcompare =>
      cases h
      exact ⟨rfl, hcompare, rfl⟩

namespace Tree
open Answer

def postorder : Tree → List Tree
  | operand s => [operand s]
  | node op l r => l.postorder ++ r.postorder ++ [node op l r]

/-- The fault of a node's own step. A node takes no step before both of its sides have values. -/
def stepFault? (c : Context) : Tree → Option Fault
  | operand s => fault? (c.resolve s)
  | node op l r =>
    match l.evaluate c, r.evaluate c with
    | .ok a, .ok b => fault? (op.apply a b)
    | _, _ => none

theorem mem_postorder_self (t : Tree) : t ∈ t.postorder := by
  cases t <;> simp [postorder]

theorem operand_mem_postorder {t : Tree} {s : String} :
    operand s ∈ t.postorder ↔ s ∈ t.operands := by
  induction t with
  | operand s' => simp [postorder, operands]
  | node op l r ihl ihr => simp [postorder, operands, ihl, ihr]

theorem fault?_evaluate_node (c : Context) (op : Operator) (l r : Tree) :
    fault? ((node op l r).evaluate c) =
      ((fault? (l.evaluate c)).or (fault? (r.evaluate c))).or ((node op l r).stepFault? c) := by
  simp only [evaluate, stepFault?]
  cases l.evaluate c with
  | error f => rfl
  | ok a =>
    cases r.evaluate c with
    | error f => rfl
    | ok b => rfl

theorem fault?_evaluate (c : Context) (t : Tree) :
    fault? (t.evaluate c) = t.postorder.findSome? (stepFault? c) := by
  induction t with
  | operand s =>
    rw [postorder, List.findSome?_singleton]
    rfl
  | node op l r ihl ihr =>
    rw [fault?_evaluate_node, ihl, ihr, postorder, List.findSome?_append, List.findSome?_append,
      List.findSome?_singleton]

theorem evaluate_eq_error_iff (c : Context) (t : Tree) (f : Fault) :
    t.evaluate c = .error f ↔ ∃ before u after, t.postorder = before ++ u :: after ∧
      u.stepFault? c = some f ∧ ∀ w ∈ before, w.stepFault? c = none := by
  rw [← fault?_eq_some, fault?_evaluate, List.findSome?_eq_some_iff]

theorem evaluate_isOk_iff (c : Context) (t : Tree) :
    (∃ v, t.evaluate c = .ok v) ↔ ∀ u ∈ t.postorder, ∃ v, u.evaluate c = .ok v := by
  refine ⟨fun h => ?_, fun h => h t (mem_postorder_self t)⟩
  induction t with
  | operand s => simpa [postorder] using h
  | node op l r ihl ihr =>
    have hparts := h
    rw [← fault?_eq_none, fault?_evaluate_node, Option.or_eq_none_iff, Option.or_eq_none_iff,
      fault?_eq_none, fault?_eq_none] at hparts
    obtain ⟨⟨hl, hr⟩, -⟩ := hparts
    intro u hu
    rw [postorder, List.mem_append, List.mem_append, List.mem_singleton] at hu
    rcases hu with (hu | hu) | rfl
    · exact ihl hl u hu
    · exact ihr hr u hu
    · exact h

theorem stepFault?_eq_some {c : Context} {u : Tree} {f : Fault} (h : u.stepFault? c = some f) :
    (∃ x, u = operand x ∧ Literal.read? x = none ∧ c.get? x = none ∧ f = .unresolved x) ∨
      ∃ op l r a b, u = node op l r ∧ l.evaluate c = .ok a ∧ r.evaluate c = .ok b ∧
        op.isOrdering ∧ a.compare? b = none ∧ f = .mismatch op a.kind b.kind := by
  cases u with
  | operand s =>
    rw [stepFault?, fault?_eq_some] at h
    exact .inl ⟨s, rfl, Context.resolve_eq_error h⟩
  | node op l r =>
    rw [stepFault?] at h
    split at h
    · next a b hl hr =>
      rw [fault?_eq_some] at h
      exact .inr ⟨op, l, r, a, b, rfl, hl, hr, Operator.apply_eq_error h⟩
    · cases h

theorem fault_cases {c : Context} {t : Tree} {f : Fault} (h : t.evaluate c = .error f) :
    (∃ x ∈ t.fields, c.get? x = none ∧ f = .unresolved x) ∨
      ∃ op l r a b, node op l r ∈ t.postorder ∧ l.evaluate c = .ok a ∧ r.evaluate c = .ok b ∧
        op.isOrdering ∧ a.compare? b = none ∧ f = .mismatch op a.kind b.kind := by
  obtain ⟨before, u, after, hpost, hstep, -⟩ := (evaluate_eq_error_iff c t f).mp h
  have hu : u ∈ t.postorder := by simp [hpost]
  rcases stepFault?_eq_some hstep with ⟨x, rfl, hread, hget, hf⟩ | ⟨op, l, r, a, b, rfl, h⟩
  · exact .inl ⟨x, mem_fields.mpr ⟨operand_mem_postorder.mp hu, hread⟩, hget, hf⟩
  · exact .inr ⟨op, l, r, a, b, hu, h⟩

theorem evaluate_unresolved {c : Context} {t : Tree} {x : String}
    (h : t.evaluate c = .error (.unresolved x)) : x ∈ t.fields ∧ c.get? x = none := by
  rcases fault_cases h with ⟨y, hy, hget, hf⟩ | ⟨op, l, r, a, b, -, -, -, -, -, hf⟩
  · cases hf
    exact ⟨hy, hget⟩
  · cases hf

theorem evaluate_unbound {c : Context} {t : Tree} {x : String} (hx : x ∈ t.fields)
    (hget : c.get? x = none) : ∃ f, t.evaluate c = .error f := by
  obtain ⟨hmem, hread⟩ := mem_fields.mp hx
  cases ht : t.evaluate c with
  | error f => exact ⟨f, rfl⟩
  | ok v =>
    have hparts := (evaluate_isOk_iff c t).mp ⟨v, ht⟩
    obtain ⟨w, hw⟩ := hparts (operand x) (operand_mem_postorder.mpr hmem)
    have hfault : (operand x).evaluate c = .error (.unresolved x) :=
      Context.resolve_of_unbound hread hget
    rw [hfault] at hw
    cases hw

/-- A tree has a value just if all of its subtrees have one. Otherwise its fault is that of the
first subtree in post-order whose own step fails: a field of the tree that the context does not
bind, or two values that have no order. So a field that is not bound is always a fault. -/
theorem evaluate_first_fault (t : Tree) (c : Context) :
    ((∃ v, t.evaluate c = .ok v) ↔ ∀ u ∈ t.postorder, ∃ v, u.evaluate c = .ok v) ∧
    (∀ f, t.evaluate c = .error f ↔ ∃ before u after, t.postorder = before ++ u :: after ∧
      u.stepFault? c = some f ∧ ∀ w ∈ before, w.stepFault? c = none) ∧
    (∀ f, t.evaluate c = .error f →
      (∃ x ∈ t.fields, c.get? x = none ∧ f = .unresolved x) ∨
        ∃ op l r a b, node op l r ∈ t.postorder ∧ l.evaluate c = .ok a ∧ r.evaluate c = .ok b ∧
          op.isOrdering ∧ a.compare? b = none ∧ f = .mismatch op a.kind b.kind) ∧
    ((∃ x ∈ t.fields, c.get? x = none) → ∃ f, t.evaluate c = .error f) := by
  refine ⟨evaluate_isOk_iff c t, evaluate_eq_error_iff c t, fun f => fault_cases, ?_⟩
  rintro ⟨x, hx, hget⟩
  exact evaluate_unbound hx hget

/- The left side alone would decide this conjunction, and the right side still fails it. -/
example : evaluate (.ofList [("a", .number (.ofInt (-1)))])
    (node .and (node .gt (operand "a") (operand "0")) (node .gt (operand "b") (operand "0"))) =
      .error (.unresolved "b") := by decide +kernel

end Tree
end Rulebook
