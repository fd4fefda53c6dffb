import Rulebook.Proofs.Outcome
import Rulebook.Record

/-! How one record of a stored tree is judged. It is an operand, or an operator over two records,
or it fails by itself in one of a few ways. What is shown of stored trees follows these cases. -/

namespace Rulebook

namespace Record

/-- A record that may stand in a stored tree: an operator with its symbol and both children, or an
operand with a literal and no child. -/
inductive IsSound (r : Record) : Prop
  | operator (op : Operator) (htype : r.type = "operator") (hvalue : r.value = some op.symbol)
      (hleft : r.left ≠ none) (hright : r.right ≠ none)
  | operand (s : String) (htype : r.type = "operand") (hvalue : r.value = some s) (hs : s ≠ "")
      (hleft : r.left = none) (hright : r.right = none)

inductive Fails (r : Record) : Fault → Prop
  | type (hoperator : r.type ≠ "operator") (hoperand : r.type ≠ "operand") :
      Fails r (.unknownRecord r.type)
  | symbolMissing (htype : r.type = "operator") (hvalue : r.value = none) :
      Fails r (.record .symbolMissing)
  | symbol (s : String) (htype : r.type = "operator") (hvalue : r.value = some s)
      (hs : ∀ op : Operator, op.symbol ≠ s) : Fails r (.unknownOperator s)
  | childMissing (op : Operator) (htype : r.type = "operator") (hvalue : r.value = some op.symbol)
      (hchild : r.left = none ∨ r.right = none) : Fails r (.record (.childMissing op))
  | childOnOperand (htype : r.type = "operand") (hchild : r.left ≠ none ∨ r.right ≠ none) :
      Fails r (.record .childOnOperand)
  | literalMissing (htype : r.type = "operand") (hleft : r.left = none) (hright : r.right = none)
      (hvalue : r.value = none ∨ r.value = some "") : Fails r (.record .literalMissing)

theorem Fails.not_isSound {r : Record} {f : Fault} (h : r.Fails f) : ¬ r.IsSound := by
  rintro (⟨op, htype, hvalue, hleft, hright⟩ | ⟨s, htype, hvalue, hs, hleft, hright⟩)
  · cases h with
    | symbol s _ hvalue' hs =>
      rw [hvalue] at hvalue'
      exact hs op (Option.some.inj hvalue')
    | _ => simp_all
  · cases h <;> simp_all

/-- A record fails by itself, or it is an operand, or an operator over two records. -/
theorem judged_induction {motive : Record → Prop} (fails : ∀ r f, r.Fails f → motive r)
    (operand : ∀ s, s ≠ "" → motive ⟨"operand", some s, none, none⟩)
    (operator : ∀ (op : Operator) l r, motive l → motive r →
      motive ⟨"operator", some op.symbol, some l, some r⟩) (r : Record) : motive r := by
  have childless {left right : Option Record} (h : ¬ (left.isSome ∨ right.isSome)) :
      left = none ∧ right = none := by
    simpa [not_or] using h
  induction r using Tree.ofRecord.induct with
  | case1 left right => exact fails _ _ (.symbolMissing rfl rfl)
  | case2 left right s hs =>
    refine fails _ _ (.symbol s rfl rfl fun op hop => ?_)
    rw [← hop, Operator.ofSymbol?_symbol] at hs
    cases hs
  | case3 s op hop l r hl hr =>
    rw [← Operator.symbol_of_ofSymbol? hop]
    exact operator op l r hl hr
  | case4 left right s op hop hchild =>
    rw [← Operator.symbol_of_ofSymbol? hop]
    refine fails _ _ (.childMissing op rfl rfl ?_)
    cases left with
    | none => exact .inl rfl
    | some l =>
      cases right with
      | none => exact .inr rfl
      | some r => exact (hchild l r rfl rfl).elim
  | case5 value left right hchild _ =>
    refine fails _ _ (.childOnOperand rfl ?_)
    simpa [Option.isSome_iff_ne_none] using hchild
  | case6 left right hchild _ =>
    obtain ⟨rfl, rfl⟩ := childless hchild
    exact fails _ _ (.literalMissing rfl rfl rfl (.inr rfl))
  | case7 left right hchild s hs _ =>
    obtain ⟨rfl, rfl⟩ := childless hchild
    exact operand s hs
  | case8 left right hchild _ =>
    obtain ⟨rfl, rfl⟩ := childless hchild
    exact fails _ _ (.literalMissing rfl rfl rfl (.inl rfl))
  | case9 type value left right hoperator hoperand => exact fails _ _ (.type hoperator hoperand)

end Record

namespace Tree
open Record
variable {r : Record} {f : Fault}

theorem ofRecord_of_fails (h : r.Fails f) : ofRecord r = .error f := by
  obtain ⟨type, value, left, right⟩ := r
  rw [ofRecord.eq_def]
  cases h with
  | type hoperator hoperand => simp only [hoperator, hoperand, if_false]
  | symbolMissing htype hvalue =>
    cases htype
    cases hvalue
    rfl
  | symbol s htype hvalue hs =>
    cases htype
    cases hvalue
    have hnone : Operator.ofSymbol? s = none := by
      rw [Option.eq_none_iff_forall_ne_some]
      exact fun op hop => hs op (Operator.symbol_of_ofSymbol? hop)
    simp only [hnone, if_true]
  | childMissing op htype hvalue hchild =>
    cases htype
    cases hvalue
    rcases hchild with rfl | rfl
    · simp [Operator.ofSymbol?_symbol]
    · simp [Operator.ofSymbol?_symbol]
  | childOnOperand htype hchild =>
    cases htype
    simp_all [Option.isSome_iff_ne_none]
  | literalMissing htype hleft hright hvalue =>
    cases htype
    cases hleft
    cases hright
    rcases hvalue with rfl | rfl
    · rfl
    · rfl

theorem ofRecord_operand {s : String} (hs : s ≠ "") :
    ofRecord ⟨"operand", some s, none, none⟩ = .ok (operand s) := by
  simp [ofRecord, hs]

theorem ofRecord_operator (op : Operator) (l r : Record) :
    ofRecord ⟨"operator", some op.symbol, some l, some r⟩ =
      ofRecord l >>= fun a => ofRecord r >>= fun b => .ok (node op a b) := by
  simp only [ofRecord, if_true, Operator.ofSymbol?_symbol]
  rfl

def toRecord : Tree → Record
  | operand s => ⟨"operand", some s, none, none⟩
  | node op l r => ⟨"operator", some op.symbol, some l.toRecord, some r.toRecord⟩

theorem ofRecord_toRecord (t : Tree) :
    ("" ∉ t.operands → ofRecord t.toRecord = .ok t) ∧
    ("" ∈ t.operands → ofRecord t.toRecord = .error (.record .literalMissing)) := by
  induction t with
  | operand s =>
    rw [toRecord, operands, List.mem_singleton]
    refine ⟨fun hs => ofRecord_operand (Ne.symm hs), fun hs => ?_⟩
    exact ofRecord_of_fails (.literalMissing rfl rfl rfl (.inr (by rw [hs])))
  | node op l r ihl ihr =>
    rw [toRecord, operands, List.mem_append, not_or, ofRecord_operator]
    constructor
    · rintro ⟨hl, hr⟩
      rw [ihl.1 hl, ihr.1 hr]
      rfl
    · intro h
      by_cases hl : "" ∈ l.operands
      · rw [ihl.2 hl]
        rfl
      · rw [ihl.1 hl, ihr.2 (h.resolve_left hl)]
        rfl

theorem ofRecord_eq_ok_iff {t : Tree} : ofRecord r = .ok t ↔ r = t.toRecord ∧ "" ∉ t.operands := by
  refine ⟨fun h => ?_, fun h => h.1 ▸ (ofRecord_toRecord t).1 h.2⟩
  induction r using judged_induction generalizing t with
  | fails r f hf =>
    rw [ofRecord_of_fails hf] at h
    cases h
  | operand s hs =>
    rw [ofRecord_operand hs] at h
    cases h
    exact ⟨rfl, by simpa [operands] using Ne.symm hs⟩
  | operator op l r ihl ihr =>
    rw [ofRecord_operator] at h
    obtain ⟨a, ha, h⟩ := bind_eq_ok.mp h
    obtain ⟨b, hb, h⟩ := bind_eq_ok.mp h
    cases h
    obtain ⟨rfl, hoa⟩ := ihl ha
    obtain ⟨rfl, hob⟩ := ihr hb
    exact ⟨rfl, by simp [operands, hoa, hob]⟩

end Tree
end Rulebook
