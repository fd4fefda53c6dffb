import Rulebook.Proofs.Record.Judgement

/-! The fault of a stored tree. Each record is judged before its children, and the left child
before the right one, so the first record that fails decides. If no record fails, the tree says
the same as its records. -/

namespace Rulebook

namespace Record

def preorder : Record → List Record
  | ⟨type, value, left, right⟩ =>
    ⟨type, value, left, right⟩ ::
      ((match left with | some l => l.preorder | none => []) ++
        match right with | some r => r.preorder | none => [])

theorem preorder_eq_cons (r : Record) :
    r.preorder = r :: (r.left.elim [] preorder ++ r.right.elim [] preorder) := by
  obtain ⟨type, value, left, right⟩ := r
  cases left <;> cases right <;> rfl

end Record

namespace Tree
open Record
variable {r : Record} {f : Fault}

theorem isSound_of_ofRecord {t : Tree} (h : ofRecord r = .ok t) : ∀ x ∈ r.preorder, x.IsSound := by
  induction r using judged_induction generalizing t with
  | fails r f hf =>
    rw [ofRecord_of_fails hf] at h
    cases h
  | operand s hs =>
    intro x hx
    rw [List.mem_singleton.mp hx]
    exact .operand s rfl rfl hs rfl rfl
  | operator op l r ihl ihr =>
    rw [ofRecord_operator] at h
    obtain ⟨a, ha, h⟩ := bind_eq_ok.mp h
    obtain ⟨b, hb, -⟩ := bind_eq_ok.mp h
    intro x hx
    rcases List.mem_cons.mp hx with rfl | hx
    · exact .operator op rfl rfl (by simp) (by simp)
    · rcases List.mem_append.mp hx with hx | hx
      · exact ihl ha x hx
      · exact ihr hb x hx

theorem exists_fails_of_ofRecord (h : ofRecord r = .error f) :
    ∃ before x after, r.preorder = before ++ x :: after ∧ (∀ y ∈ before, y.IsSound) ∧
      x.Fails f := by
  induction r using judged_induction with
  | fails r g hg =>
    rw [ofRecord_of_fails hg] at h
    cases h
    exact ⟨[], r, _, r.preorder_eq_cons, by simp, hg⟩
  | operand s hs =>
    rw [ofRecord_operand hs] at h
    cases h
  | operator op l r ihl ihr =>
    have hroot : IsSound ⟨"operator", some op.symbol, some l, some r⟩ :=
      .operator op rfl rfl (by simp) (by simp)
    rw [ofRecord_operator, bind_eq_error] at h
    rcases h with hl | ⟨a, ha, h⟩
    · obtain ⟨before, x, after, hpre, hbefore, hx⟩ := ihl hl
      refine ⟨_ :: before, x, after ++ r.preorder, ?_,
        List.forall_mem_cons.mpr ⟨hroot, hbefore⟩, hx⟩
      simp [preorder, hpre]
    · rcases bind_eq_error.mp h with hr | ⟨b, -, hb⟩
      · obtain ⟨before, x, after, hpre, hbefore, hx⟩ := ihr hr
        have hleft : ∀ y ∈ l.preorder ++ before, y.IsSound :=
          List.forall_mem_append.mpr ⟨isSound_of_ofRecord ha, hbefore⟩
        refine ⟨_ :: (l.preorder ++ before), x, after, ?_,
          List.forall_mem_cons.mpr ⟨hroot, hleft⟩, hx⟩
        simp [preorder, hpre]
      · cases hb

theorem ofRecord_eq_error_iff : ofRecord r = .error f ↔
    ∃ before x after, r.preorder = before ++ x :: after ∧ (∀ y ∈ before, y.IsSound) ∧
      x.Fails f := by
  classical
  have hfirst {before after : List Record} {x : Record} {g : Fault}
      (hpre : r.preorder = before ++ x :: after) (hbefore : ∀ y ∈ before, y.IsSound)
      (hx : x.Fails g) : r.preorder.find? (fun y => ¬ y.IsSound) = some x :=
    List.find?_eq_some_iff_append.mpr ⟨by simpa using hx.not_isSound, before, after, hpre,
      fun y hy => by simpa using hbefore y hy⟩
  refine ⟨exists_fails_of_ofRecord, ?_⟩
  rintro ⟨before, x, after, hpre, hbefore, hx⟩
  have hmem : x ∈ r.preorder := by simp [hpre]
  cases hr : ofRecord r with
  | ok t => exact absurd (isSound_of_ofRecord hr x hmem) hx.not_isSound
  | error g =>
    -- Both are the first record that is not sound, so they are the same, and so are their faults.
    obtain ⟨before', x', after', hpre', hbefore', hx'⟩ := exists_fails_of_ofRecord hr
    have hsame : some x = some x' :=
      (hfirst hpre hbefore hx).symm.trans (hfirst hpre' hbefore' hx')
    cases hsame
    rw [← ofRecord_of_fails hx', ofRecord_of_fails hx]

/-- A stored tree is a tree just if all of its records are sound. Otherwise its fault is that of
the first record in pre-order that fails, whatever comes after it. The records of a tree have its
shape, its symbols and its literals, and nothing else. -/
theorem ofRecord_first_fault (r : Record) :
    ((∃ t, ofRecord r = .ok t) ↔ ∀ x ∈ r.preorder, x.IsSound) ∧
    (∀ f, ofRecord r = .error f ↔ ∃ before x after, r.preorder = before ++ x :: after ∧
      (∀ y ∈ before, y.IsSound) ∧ x.Fails f) ∧
    ∀ t, ofRecord r = .ok t ↔ r = t.toRecord ∧ "" ∉ t.operands := by
  refine ⟨⟨fun ⟨t, ht⟩ => isSound_of_ofRecord ht, fun hsound => ?_⟩,
    fun f => ofRecord_eq_error_iff, fun t => ofRecord_eq_ok_iff⟩
  cases hr : ofRecord r with
  | ok t => exact ⟨t, rfl⟩
  | error f =>
    obtain ⟨before, x, after, hpre, -, hx⟩ := exists_fails_of_ofRecord hr
    exact absurd (hsound x (by simp [hpre])) hx.not_isSound

-- The missing child is told before the fault of the child that is there.
example : ofRecord ⟨"operator", some "AND", some ⟨"leaf", none, none, none⟩, none⟩ =
    .error (.record (.childMissing .and)) := rfl

end Tree
end Rulebook
