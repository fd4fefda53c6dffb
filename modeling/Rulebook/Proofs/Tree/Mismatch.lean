import Rulebook.Proofs.Context.Finite
import Rulebook.Proofs.Tree.FirstFault

/-! Evaluation on data that were read. All numbers on the way are finite, so two numbers always
have an order, and only kinds decide which comparisons fail. -/

namespace Rulebook

theorem Literal.isFinite_read? {s : String} {v : Value} (h : Literal.read? s = some v) :
    v.IsFinite := by
  rw [read?] at h
  split at h
  · cases h
    trivial
  · rw [Option.map_eq_some_iff] at h
    obtain ⟨x, hx, rfl⟩ := h
    rw [number?, Option.bind_eq_some_iff] at hx
    obtain ⟨⟨negative, d⟩, -, hx⟩ := hx
    dsimp only at hx
    split at hx
    · next hfinite =>
      cases hx
      exact hfinite
    · cases hx

theorem Context.Finite.resolve {c : Context} (hc : c.Finite) {s : String} {v : Value}
    (h : c.resolve s = .ok v) : v.IsFinite := by
  rw [Context.resolve] at h
  split at h
  · next hread =>
    cases h
    exact Literal.isFinite_read? hread
  · split at h
    · next hget =>
      cases h
      exact hc.get? hget
    · cases h

theorem Operator.isFinite_apply {op : Operator} {a b v : Value} (h : op.apply a b = .ok v) :
    v.IsFinite := by
  cases op with
  | and | or | eq | ne =>
    cases h
    trivial
  | lt | le | gt | ge =>
    simp only [apply] at h
    split at h
    · cases h
      trivial
    · cases h

namespace Tree
variable {c : Context}

theorem isFinite_evaluate (hc : c.Finite) {t : Tree} {v : Value} (h : t.evaluate c = .ok v) :
    v.IsFinite := by
  cases t with
  | operand s => exact hc.resolve h
  | node op l r =>
    obtain ⟨a, -, h⟩ := bind_eq_ok.mp h
    obtain ⟨b, -, h⟩ := bind_eq_ok.mp h
    exact Operator.isFinite_apply h

theorem stepFault?_eq_mismatch (hc : c.Finite) {u : Tree} {op : Operator} {p q : Kind} :
    u.stepFault? c = some (.mismatch op p q) ↔
      ∃ l r a b, u = node op l r ∧ op.isOrdering ∧ l.evaluate c = .ok a ∧ r.evaluate c = .ok b ∧
        a.kind = p ∧ b.kind = q ∧ (p ≠ q ∨ p = .boolean ∧ q = .boolean) := by
  constructor
  · intro h
    rcases stepFault?_eq_some h with ⟨x, -, -, -, hf⟩ | ⟨op', l, r, a, b, rfl, hl, hr, hop, hab, hf⟩
    · cases hf
    · cases hf
      rw [Value.compare?_eq_none (isFinite_evaluate hc hl).ne_nan
        (isFinite_evaluate hc hr).ne_nan] at hab
      exact ⟨l, r, a, b, rfl, hop, hl, hr, rfl, rfl, hab⟩
  · rintro ⟨l, r, a, b, rfl, hop, hl, hr, rfl, rfl, hab⟩
    rw [← Value.compare?_eq_none (isFinite_evaluate hc hl).ne_nan
      (isFinite_evaluate hc hr).ne_nan] at hab
    rw [stepFault?, hl, hr]
    cases op with
    | and | or | eq | ne => cases hop
    | lt | le | gt | ge => simp [Operator.apply, hab, Answer.fault?]

theorem evaluate_eq_mismatch (hc : c.Finite) {t : Tree} {op : Operator} {p q : Kind} :
    t.evaluate c = .error (.mismatch op p q) ↔
      ∃ before l r after a b, t.postorder = before ++ node op l r :: after ∧
        (∀ w ∈ before, w.stepFault? c = none) ∧ op.isOrdering ∧
        l.evaluate c = .ok a ∧ r.evaluate c = .ok b ∧ a.kind = p ∧ b.kind = q ∧
        (p ≠ q ∨ p = .boolean ∧ q = .boolean) := by
  rw [evaluate_eq_error_iff]
  constructor
  · rintro ⟨before, u, after, hpost, hstep, hbefore⟩
    obtain ⟨l, r, a, b, rfl, h⟩ := (stepFault?_eq_mismatch hc).mp hstep
    exact ⟨before, l, r, after, a, b, hpost, hbefore, h⟩
  · rintro ⟨before, l, r, after, a, b, hpost, hbefore, h⟩
    exact ⟨before, _, after, hpost, (stepFault?_eq_mismatch hc).mpr ⟨l, r, a, b, rfl, h⟩, hbefore⟩

/-- On data that were read from a text by either reader, no part of a tree has a value that is not
finite, and neither two numbers nor two texts mismatch. A mismatch is the fault of a tree just if
the first node in post-order whose own step fails orders values of two kinds, or two booleans. -/
theorem evaluate_read_data {s : String}
    (h : Context.ofText s = .ok c ∨
      (JsonText.ofString s).read (Context.ofDocument Document.textRoom) = .ok c) (t : Tree) :
    (∀ u ∈ t.postorder, ∀ v, u.evaluate c = .ok v → v.IsFinite) ∧
    (∀ op p q, t.evaluate c = .error (.mismatch op p q) →
      ¬ (p = .number ∧ q = .number) ∧ ¬ (p = .text ∧ q = .text)) ∧
    ∀ op p q, t.evaluate c = .error (.mismatch op p q) ↔
      ∃ before l r after a b, t.postorder = before ++ node op l r :: after ∧
        (∀ w ∈ before, w.stepFault? c = none) ∧ op.isOrdering ∧
        l.evaluate c = .ok a ∧ r.evaluate c = .ok b ∧ a.kind = p ∧ b.kind = q ∧
        (p ≠ q ∨ p = .boolean ∧ q = .boolean) := by
  have hc : c.Finite := h.elim Context.finite_ofText Context.finite_read
  refine ⟨fun u _ v hv => isFinite_evaluate hc hv, fun op p q hmismatch => ?_,
    fun op p q => evaluate_eq_mismatch hc⟩
  obtain ⟨before, l, r, after, a, b, -, -, -, -, -, -, -, hkinds⟩ :=
    (evaluate_eq_mismatch hc).mp hmismatch
  constructor
  · rintro ⟨rfl, rfl⟩
    simp at hkinds
  · rintro ⟨rfl, rfl⟩
    simp at hkinds

/-- Both sides of `<=` are booleans here. The field `1e999`, which is not bound, comes later. -/
theorem evaluate_read_data_boolean :
    let s := "\x7b\"a\": 1e308, \"b\": true, \"c\": \"x\"\x7d"
    let t := node .and (node .le (operand "b") (node .lt (operand "a") (operand "5")))
      (node .gt (operand "c") (operand "1e999"))
    ∃ c, Context.ofText s = .ok c ∧
      (∀ u ∈ t.postorder, ∀ v, u.evaluate c = .ok v → v.IsFinite) ∧
      t.evaluate c = .error (.mismatch .le .boolean .boolean) := by
  intro s t
  obtain ⟨c, hc⟩ : ∃ c, Context.ofText s = .ok c := exists_ok (by decide +kernel)
  have ht : (Context.ofText s >>= fun c => t.evaluate c) =
      .error (.mismatch .le .boolean .boolean) := by decide +kernel
  rw [hc] at ht
  exact ⟨c, hc, (evaluate_read_data (.inl hc) t).1, ht⟩

end Tree
end Rulebook
