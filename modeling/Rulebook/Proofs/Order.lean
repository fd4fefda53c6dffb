import Rulebook.Proofs.Conclusion
import Rulebook.Proofs.Text.Bytes
import Rulebook.Proofs.Value

/-! The comparisons of rules are one order. NaN apart, numbers are ordered among themselves and texts
among themselves, equality is a part of that order, and nothing else is ordered at all. -/

namespace Rulebook.Operator
variable {a b d : Value}

def Holds (op : Operator) (a b : Value) : Prop := op.apply a b = .ok (.boolean true)

def Ordered (a b : Value) : Prop :=
  a.kind = .number ∧ b.kind = .number ∨ a.kind = .text ∧ b.kind = .text

theorem ordered_iff (ha : a ≠ .number .nan) (hb : b ≠ .number .nan) :
    Ordered a b ↔ ∃ o, a.compare? b = some o := by
  have hnone := Value.compare?_eq_none ha hb
  rw [← Option.ne_none_iff_exists', ne_eq, hnone, Ordered]
  cases a.kind <;> cases b.kind <;> simp

theorem holds_eq_iff : eq.Holds a b ↔ a.equal b := by
  simp [Holds, apply]

theorem apply_of_compare? {op : Operator} (hop : op.isOrdering) {o : Ordering}
    (h : a.compare? b = some o) : op.apply a b = .ok (.boolean (op.accepts o)) := by
  cases op with
  | and | or | eq | ne => cases hop
  | lt | le | gt | ge => simp only [apply, h]

theorem apply_of_not_compare? {op : Operator} (hop : op.isOrdering) (h : a.compare? b = none) :
    op.apply a b = .error (.mismatch op a.kind b.kind) := by
  cases op with
  | and | or | eq | ne => cases hop
  | lt | le | gt | ge => simp only [apply, h]

theorem holds_lt_iff : lt.Holds a b ↔ a.compare? b = some .lt := by
  have hlt : lt.isOrdering := rfl
  cases h : a.compare? b with
  | none => simp [Holds, apply_of_not_compare? hlt h]
  | some o =>
    rw [Holds, apply_of_compare? hlt h]
    cases o <;> simp [accepts]

theorem apply_congr (op : Operator) (h : a.equal b) (d : Value) : op.apply a d = op.apply b d := by
  cases op with
  | and | or => rw [apply, apply, Value.isTrue_congr h]
  | eq | ne => rw [apply, apply, Value.equal_congr h]
  | lt | le | gt | ge =>
    simp only [apply, Value.compare?_congr h, Value.kind_congr h]

theorem apply_congr_right (op : Operator) (h : a.equal b) (d : Value) :
    op.apply d a = op.apply d b := by
  cases op with
  | and | or => rw [apply, apply, Value.isTrue_congr h]
  | eq | ne => rw [apply, apply, d.equal_comm a, d.equal_comm b, Value.equal_congr h]
  | lt | le | gt | ge =>
    simp only [apply, ← Value.compare?_swap a d, ← Value.compare?_swap b d,
      Value.compare?_congr h, Value.kind_congr h]

theorem holds_of_compare? {o : Ordering} (h : a.compare? b = some o) :
    (lt.Holds a b ↔ o = .lt) ∧ (eq.Holds a b ↔ o = .eq) ∧ (gt.Holds a b ↔ o = .gt) ∧
      (le.Holds a b ↔ lt.Holds a b ∨ eq.Holds a b) ∧
      (ge.Holds a b ↔ gt.Holds a b ∨ eq.Holds a b) := by
  have heq : eq.Holds a b ↔ o = .eq := holds_eq_iff.trans (Value.equal_iff_of_compare? h)
  have hholds (op : Operator) (hop : op.isOrdering) : op.Holds a b ↔ op.accepts o := by
    rw [Holds, apply_of_compare? hop h]
    simp
  rw [heq, hholds lt rfl, hholds gt rfl, hholds le rfl, hholds ge rfl]
  cases o <;> decide

theorem holds_lt_text_iff (s t : String) : lt.Holds (.text s) (.text t) ↔ s < t := by
  rw [holds_lt_iff, Value.compare?, Option.some_inj]
  exact compare_lt_iff_lt

theorem holds_eq_symm (h : eq.Holds a b) : eq.Holds b a := by
  rw [holds_eq_iff] at h ⊢
  rw [Value.equal_comm, h]

theorem holds_eq_trans (hab : eq.Holds a b) (hbd : eq.Holds b d) : eq.Holds a d := by
  rw [holds_eq_iff] at hab hbd ⊢
  rw [Value.equal_congr hab, hbd]

/-- On other values than NaN the comparisons are one order. Inequality denies equality. The ordering
operators mismatch all or none, and none just on two numbers or two texts. Of such values just one
is less, equal or greater, and the weak operators are the strict ones or equality. Less is
transitive, and equality is an equivalence that every operator respects, so that the two zeros can
stand for each other. Texts are ordered by their bytes, which is to say by their code points. -/
theorem comparisons_are_one_order (a b d : Value) (ha : a ≠ .number .nan)
    (hb : b ≠ .number .nan) :
    (∃ p, eq.apply a b = .ok (.boolean p) ∧ ne.apply a b = .ok (.boolean !p)) ∧
    (Ordered a b →
      (∀ op : Operator, op.isOrdering → ∃ p, op.apply a b = .ok (.boolean p)) ∧
      (∃ o : Ordering, (lt.Holds a b ↔ o = .lt) ∧ (eq.Holds a b ↔ o = .eq) ∧ (gt.Holds a b ↔ o = .gt)) ∧
      (le.Holds a b ↔ lt.Holds a b ∨ eq.Holds a b) ∧
      (ge.Holds a b ↔ gt.Holds a b ∨ eq.Holds a b)) ∧
    (¬ Ordered a b →
      ∀ op : Operator, op.isOrdering → op.apply a b = .error (.mismatch op a.kind b.kind)) ∧
    (lt.Holds a b → lt.Holds b d → lt.Holds a d) ∧
    (eq.Holds a a ∧ (eq.Holds a b → eq.Holds b a) ∧
      (eq.Holds a b → eq.Holds b d → eq.Holds a d)) ∧
    (eq.Holds a b → ∀ op : Operator, op.apply a d = op.apply b d ∧ op.apply d a = op.apply d b) ∧
    eq.Holds (.number (.signed true .zero)) (.number (.signed false .zero)) ∧
    ∀ s t, (lt.Holds (.text s) (.text t) ↔ Text.bytes s < Text.bytes t) ∧
      (Text.bytes s < Text.bytes t ↔ Text.codePoints s < Text.codePoints t) := by
  have hordered := ordered_iff ha hb
  refine ⟨⟨a.equal b, rfl, rfl⟩, fun h => ?_, fun h op hop => ?_, fun hab hbd => ?_,
    ⟨holds_eq_iff.mpr (Value.equal_self ha), holds_eq_symm, holds_eq_trans⟩, fun h op => ?_, rfl,
    fun s t => ?_⟩
  · obtain ⟨o, ho⟩ := hordered.mp h
    obtain ⟨hlt, heq, hgt, hle, hge⟩ := holds_of_compare? ho
    exact ⟨fun op hop => ⟨_, apply_of_compare? hop ho⟩, ⟨o, hlt, heq, hgt⟩, hle, hge⟩
  · have hnone : a.compare? b = none := by
      rw [← Option.not_isSome_iff_eq_none, Option.isSome_iff_exists, ← hordered]
      exact h
    exact apply_of_not_compare? hop hnone
  · rw [holds_lt_iff] at hab hbd ⊢
    exact Value.compare?_lt_trans hab hbd
  · rw [holds_eq_iff] at h
    exact ⟨apply_congr op h d, apply_congr_right op h d⟩
  · rw [holds_lt_text_iff, Text.bytes_lt_iff, Text.codePoints_lt_iff]
    exact ⟨Iff.rfl, Iff.rfl⟩

theorem comparisons_are_one_order_zeros :
    let a : Value := .number (.signed true .zero)
    let b : Value := .number (.signed false .zero)
    let d : Value := .number (.signed false .infinity)
    a ≠ .number .nan ∧ b ≠ .number .nan ∧ ¬ lt.Holds a b ∧ le.Holds a b ∧
      (∀ op : Operator, op.apply a d = op.apply b d ∧ op.apply d a = op.apply d b) ∧
      lt.Holds (.text "z") (.text "é") := by
  intro a b d
  have ha : a ≠ .number .nan := by decide
  have hb : b ≠ .number .nan := by decide
  obtain ⟨-, hordered, -, -, -, hrespects, hzeros, htexts⟩ := comparisons_are_one_order a b d ha hb
  obtain ⟨-, ⟨o, hlt, heq, -⟩, hle, -⟩ := hordered (.inl ⟨rfl, rfl⟩)
  have ho : o = .eq := heq.mp hzeros
  refine ⟨ha, hb, fun h => ?_, hle.mpr (.inr hzeros), hrespects hzeros, (htexts "z" "é").1.mpr ?_⟩
  · rw [hlt, ho] at h
    cases h
  · decide

end Rulebook.Operator
