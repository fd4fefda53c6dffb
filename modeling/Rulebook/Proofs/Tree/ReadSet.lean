import Mathlib.Data.List.Basic
import Rulebook.Evaluation

/-! What a tree reads of a context: the fields of the tree and nothing else. A key of the context
that is written like a literal of the tree is never looked up. -/

namespace Rulebook

variable {c d : Context}

theorem Context.resolve_congr {s : String} (h : Literal.read? s = none → c.get? s = d.get? s) :
    c.resolve s = d.resolve s := by
  unfold resolve
  split
  · rfl
  · next hread => rw [h hread]

namespace Tree

theorem mem_fields_node {op : Operator} {l r : Tree} {x : String} :
    x ∈ (node op l r).fields ↔ x ∈ l.fields ∨ x ∈ r.fields := by
  simp only [mem_fields, operands, List.mem_append, or_and_right]

theorem verdictAt_congr (tracing : Bool) (path : String) {t : Tree}
    (h : ∀ x ∈ t.fields, c.get? x = d.get? x) :
    t.verdictAt c tracing path = t.verdictAt d tracing path := by
  induction t generalizing path with
  | operand s =>
    have hs : c.resolve s = d.resolve s := Context.resolve_congr fun hread =>
      h s (mem_fields.mpr ⟨by simp [operands], hread⟩)
    rw [verdictAt, verdictAt, hs]
  | node op l r ihl ihr =>
    have hl : ∀ x ∈ l.fields, c.get? x = d.get? x :=
      fun x hx => h x (mem_fields_node.mpr (.inl hx))
    have hr : ∀ x ∈ r.fields, c.get? x = d.get? x :=
      fun x hx => h x (mem_fields_node.mpr (.inr hx))
    rw [verdictAt, verdictAt, ihl _ hl, ihr _ hr]

theorem evaluate_congr {t : Tree} (h : ∀ x ∈ t.fields, c.get? x = d.get? x) :
    t.evaluate c = t.evaluate d := by
  induction t with
  | operand s =>
    exact Context.resolve_congr fun hread => h s (mem_fields.mpr ⟨by simp [operands], hread⟩)
  | node op l r ihl ihr =>
    rw [evaluate, evaluate, ihl fun x hx => h x (mem_fields_node.mpr (.inl hx)),
      ihr fun x hx => h x (mem_fields_node.mpr (.inr hx))]

theorem verdict_insert (tracing : Bool) {t : Tree} {k : String} (hk : k ∉ t.fields) (v : Value) :
    t.verdict (c.insert k v) tracing = t.verdict c tracing := by
  refine verdictAt_congr tracing "root" fun x hx => ?_
  have hne : x ≠ k := by
    rintro rfl
    exact hk hx
  rw [Context.get?_insert, if_neg hne]

/-- Contexts that agree on the fields of a tree give it the same verdict, with or without lines,
or the same fault. Binding any other key makes no difference, in particular a key that reads as a
literal. -/
theorem verdict_reads_fields (t : Tree) (c d : Context) (tracing : Bool)
    (h : ∀ x ∈ t.fields, c.get? x = d.get? x) :
    t.verdict c tracing = t.verdict d tracing ∧
      ∀ k v, k ∉ t.fields ∨ Literal.read? k ≠ none →
        t.verdict (d.insert k v) tracing = t.verdict c tracing := by
  have heq : t.verdict c tracing = t.verdict d tracing := verdictAt_congr tracing "root" h
  refine ⟨heq, fun k v hk => ?_⟩
  have hfield : k ∉ t.fields := by
    intro hmem
    rcases hk with hk | hk
    · exact hk hmem
    · exact hk (mem_fields.mp hmem).2
  rw [verdict_insert tracing hfield, heq]

/-- The context binds the literals of the tree, too, and to other values. The number that is out of
range is a field like any other. -/
theorem verdict_reads_fields_shadowed :
    let t := node .or (node .eq (operand "x") (operand "42"))
      (node .lt (operand "1e400") (operand "'7'"))
    let c := Context.ofList [("x", .number (.ofInt 42)), ("1e400", .text "1")]
    let d := Context.ofList [("x", .number (.ofInt 42)), ("1e400", .text "1"), ("42", .boolean true),
      ("'7'", .text "")]
    (∀ x ∈ t.fields, c.get? x = d.get? x) ∧ t.verdict d true = t.verdict c true ∧
      (t.verdict c true).map Verdict.value = .ok (.boolean true) := by
  intro t c d
  have hfields : t.fields = ["1e400", "x"] := by decide +kernel
  have h : ∀ x ∈ t.fields, c.get? x = d.get? x := by
    rw [hfields]
    decide +kernel
  exact ⟨h, (verdict_reads_fields t c d true h).1.symm, by decide +kernel⟩

end Tree
end Rulebook
