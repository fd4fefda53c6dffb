import Mathlib.Data.Option.Basic
import Rulebook.Proofs.Outcome
import Rulebook.Proofs.Stored

/-! Drafts of records. Each member that counts gives a draft one part, and parts may be given in
any order. -/

namespace Rulebook

namespace Record
open Document

inductive Part where
  | type (s : String)
  | value (s : Option String)
  | left (r : Option Record)
  | right (r : Option Record)

namespace Part

def slot : Part → Slot
  | .type _ => .type
  | .value _ => .value
  | .left _ => .left
  | .right _ => .right

def child? : Part → Option Record
  | .left r | .right r => r
  | _ => none

def held (d : Document) (child : Except JsonFault Record) : Except JsonFault (Option Record) :=
  match d with
  | .null => .ok none
  | _ => child.map some

def read (slot : Slot) (d : Document) (child : Except JsonFault Record) : Except JsonFault Part :=
  match slot with
  | .type => d.readText.map .type
  | .value => d.readText?.map .value
  | .left => (held d child).map .left
  | .right => (held d child).map .right

variable {slot : Slot} {d : Document} {child : Except JsonFault Record} {x : Part}

theorem slot_of_read (h : read slot d child = .ok x) : x.slot = slot := by
  cases slot with
  | type | value | left | right =>
    obtain ⟨a, -, rfl⟩ := map_eq_ok.mp h
    rfl

theorem held_eq_some {r : Record} (h : held d child = .ok (some r)) : child = .ok r := by
  cases d with
  | null => cases h
  | _ =>
    obtain ⟨a, hchild, ha⟩ := map_eq_ok.mp h
    cases ha
    exact hchild

theorem child_of_read {r : Record} (h : read slot d child = .ok x) (hr : x.child? = some r) :
    child = .ok r := by
  cases slot with
  | type | value =>
    obtain ⟨a, -, rfl⟩ := map_eq_ok.mp h
    cases hr
  | left | right =>
    obtain ⟨a, ha, rfl⟩ := map_eq_ok.mp h
    obtain rfl : a = some r := hr
    exact held_eq_some ha

end Part

namespace Draft

def put (p : Draft) : Part → Draft
  | .type s => ⟨some s, p.value, p.left, p.right⟩
  | .value s => ⟨p.type, some s, p.left, p.right⟩
  | .left r => ⟨p.type, p.value, some r, p.right⟩
  | .right r => ⟨p.type, p.value, p.left, some r⟩

theorem fill_eq (p : Draft) (slot : Slot) (d : Document) (child : Except JsonFault Record) :
    p.fill slot d child = (Part.read slot d child).map p.put := by
  cases slot with
  | type => cases h : d.readText <;> simp [fill, Part.read, h, Except.map, put]
  | value => cases h : d.readText? <;> simp [fill, Part.read, h, Except.map, put]
  | left => cases child <;> cases d <;> rfl
  | right => cases child <;> cases d <;> rfl

theorem put_comm (p : Draft) {x y : Part} (h : x.slot ≠ y.slot) :
    (p.put x).put y = (p.put y).put x := by
  cases x <;> cases y <;> first | rfl | exact absurd rfl h

theorem has_put (p : Draft) (x : Part) (slot : Slot) :
    (p.put x).has slot = (p.has slot || decide (x.slot = slot)) := by
  cases x <;> cases slot <;> simp [put, has, Part.slot]

def Holds (p : Draft) (r : Record) : Prop := p.left = some (some r) ∨ p.right = some (some r)

theorem holds_put {p : Draft} {x : Part} {r : Record} (h : (p.put x).Holds r) :
    p.Holds r ∨ x.child? = some r := by
  cases x with
  | type s => exact .inl h
  | value s => exact .inl h
  | left c => exact h.elim (fun h => .inr (Option.some.inj h)) fun h => .inl (.inr h)
  | right c => exact h.elim (fun h => .inl (.inl h)) fun h => .inr (Option.some.inj h)

theorem holds_fill {p q : Draft} {slot : Slot} {d : Document} {child : Except JsonFault Record}
    {r : Record} (h : p.fill slot d child = .ok q) (hr : q.Holds r) :
    p.Holds r ∨ child = .ok r := by
  rw [fill_eq] at h
  obtain ⟨x, hx, rfl⟩ := map_eq_ok.mp h
  exact (holds_put hr).imp_right (Part.child_of_read hx)

theorem finish_eq_ok {p : Draft} {r : Record} (h : p.finish = .ok r) {c : Record}
    (hc : r.left = some c ∨ r.right = some c) : p.Holds c := by
  unfold finish at h
  split at h
  · cases h
    exact hc.imp Option.join_eq_some_iff.mp Option.join_eq_some_iff.mp
  · cases h

end Draft
end Record
end Rulebook
