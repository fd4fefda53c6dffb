import Rulebook.Proofs.Literal.Display
import Rulebook.Proofs.Tree.FirstFault
import Rulebook.Proofs.Tree.ReadSet

/-! Trees with a value written in the place of a field. Where the field is bound to that value,
nothing else becomes of the tree, and the field is not read any more. -/

namespace Rulebook.Tree
variable {c : Context}

def fill (field literal : String) : Tree → Tree
  | operand s => operand (if s = field ∧ Literal.read? s = none then literal else s)
  | node op l r => node op (l.fill field literal) (r.fill field literal)

theorem evaluate_fill {field literal : String}
    (h : Literal.read? field = none → c.resolve literal = c.resolve field) (t : Tree) :
    (t.fill field literal).evaluate c = t.evaluate c := by
  induction t with
  | operand s =>
    rw [fill, evaluate, evaluate]
    split
    · next hs =>
      obtain ⟨rfl, hfield⟩ := hs
      exact h hfield
    · rfl
  | node op l r ihl ihr => rw [fill, evaluate, evaluate, ihl, ihr]

theorem not_mem_fields_fill {field literal : String} (h : Literal.read? literal ≠ none) (t : Tree) :
    field ∉ (t.fill field literal).fields := by
  induction t with
  | operand s =>
    rw [fill, mem_fields, operands, List.mem_singleton]
    rintro ⟨heq, hread⟩
    split at heq
    · exact h (heq ▸ hread)
    · next hs => exact hs ⟨heq.symm, heq ▸ hread⟩
  | node op l r ihl ihr =>
    rw [fill, mem_fields_node, not_or]
    exact ⟨ihl, ihr⟩

theorem resolve_of_read? {literal : String} {v : Value} (h : Literal.read? literal = some v) :
    c.resolve literal = .ok v := by
  rw [Context.resolve, h]

/-- A text or a finite number is displayed as a literal for itself. Writing that literal in the place
of a field that is bound to it changes no value and no fault, and no part of the tree reads the
field any more. -/
theorem evaluate_displayed (v : Value) :
    (Literal.read? v.display = some v ↔ v.kind ≠ .boolean ∧ v.IsFinite) ∧
    (v.kind ≠ .boolean → v.IsFinite → ∀ (t : Tree) (c : Context) (field : String),
      c.get? field = some v →
        (t.fill field v.display).evaluate c = t.evaluate c ∧
          field ∉ (t.fill field v.display).fields) := by
  refine ⟨Literal.read?_display_iff v, fun hkind hfinite t c field hbound => ?_⟩
  have hread := (Literal.read?_display_iff v).mpr ⟨hkind, hfinite⟩
  have hresolve (hfield : Literal.read? field = none) : c.resolve v.display = c.resolve field := by
    rw [resolve_of_read? hread, Context.resolve, hfield, hbound]
  exact ⟨evaluate_fill hresolve t, not_mem_fields_fill (by simp [hread]) t⟩

theorem evaluate_displayed_quotes :
    let v : Value := .text "it's 'so"
    let t := node .or (node .eq (operand "x") (operand "'x'")) (node .lt (operand "x") (operand "7"))
    let c := Context.ofList [("x", v), ("'x'", .boolean true)]
    c.get? "x" = some v ∧ t.fill "x" v.display =
        node .or (node .eq (operand "'it's 'so'") (operand "'x'"))
          (node .lt (operand "'it's 'so'") (operand "7")) ∧
      (t.fill "x" v.display).evaluate c = t.evaluate c ∧
      t.evaluate c = .error (.mismatch .lt .text .number) := by
  intro v t c
  have hbound : c.get? "x" = some v := by decide +kernel
  have h := (evaluate_displayed v).2 (by decide) trivial t c "x" hbound
  exact ⟨hbound, by decide +kernel, h.1, by decide +kernel⟩

end Rulebook.Tree
