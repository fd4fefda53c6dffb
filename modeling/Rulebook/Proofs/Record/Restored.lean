import Rulebook.Proofs.Record.Draft

/-! What is read from storage. A record that is read holds a tree just if it is the record of that
tree, however it was spelled, and each level of the tree has taken a level of the text. -/

namespace Rulebook

namespace Record
open Document

theorem ofMembers_holds (room : Room) {r : Record} : ∀ (ms : Members) {p q : Draft},
    ofMembers room p ms = .ok q → q.Holds r → p.Holds r ∨ ∃ d, ofDocument room d = .ok r
  | .done stop, p, q, h, hr => by
    rw [ofMembers] at h
    obtain ⟨-, -, rfl⟩ := map_eq_ok.mp h
    exact .inl hr
  | .member key d ms, p, q, h, hr => by
    rw [ofMembers] at h
    obtain ⟨k, -, h⟩ := bind_eq_ok.mp h
    split at h
    · obtain ⟨-, -, h⟩ := bind_eq_ok.mp h
      exact ofMembers_holds room ms h hr
    · next slot _ =>
      split at h
      · cases h
      · obtain ⟨p', hp, h⟩ := bind_eq_ok.mp h
        rcases ofMembers_holds room ms h hr with hp' | hd
        · exact (Draft.holds_fill hp hp').imp_right fun hd => ⟨d, hd⟩
        · exact .inr hd

theorem ofItems_holds (room : Room) {r : Record} : ∀ (is : Items) {place : Nat} {p q : Draft},
    ofItems room p place is = .ok q → q.Holds r → p.Holds r ∨ ∃ d, ofDocument room d = .ok r
  | .done stop, place, p, q, h, hr => by
    rw [ofItems] at h
    obtain ⟨-, -, rfl⟩ := map_eq_ok.mp h
    exact .inl hr
  | .item d is, place, p, q, h, hr => by
    rw [ofItems] at h
    split at h
    · cases h
    · obtain ⟨p', hp, h⟩ := bind_eq_ok.mp h
      rcases ofItems_holds room is h hr with hp' | hd
      · exact (Draft.holds_fill hp hp').imp_right fun hd => ⟨d, hd⟩
      · exact .inr hd

theorem Draft.not_holds_empty (r : Record) : ¬ Draft.empty.Holds r := by
  rintro (h | h) <;> cases h

theorem ofDocument_children {room : Room} {d : Document} {r : Record}
    (h : ofDocument room d = .ok r) :
    ∃ inner, enter room = .ok inner ∧
      ∀ c, r.left = some c ∨ r.right = some c → ∃ d, ofDocument inner d = .ok c := by
  cases d with
  | object ms =>
    rw [ofDocument] at h
    obtain ⟨inner, hroom, h⟩ := bind_eq_ok.mp h
    obtain ⟨p, hp, h⟩ := bind_eq_ok.mp h
    refine ⟨inner, hroom, fun c hc => ?_⟩
    exact (ofMembers_holds inner ms hp (Draft.finish_eq_ok h hc)).resolve_left
      (Draft.not_holds_empty c)
  | array is =>
    rw [ofDocument] at h
    obtain ⟨inner, hroom, h⟩ := bind_eq_ok.mp h
    obtain ⟨p, hp, h⟩ := bind_eq_ok.mp h
    refine ⟨inner, hroom, fun c hc => ?_⟩
    exact (ofItems_holds inner is hp (Draft.finish_eq_ok h hc)).resolve_left
      (Draft.not_holds_empty c)
  | _ => cases h

end Record

namespace Document

theorem admits_of_enter {room inner : Room} (h : enter room = .ok inner) :
    room.Admits 0 ∧ ∀ depth, room.Admits (1 + depth) ↔ Room.Admits inner depth := by
  by_cases h0 : room.Admits 0
  · obtain ⟨inner', hinner, hdepth⟩ := enter_admits room h0
    rw [h] at hinner
    cases hinner
    exact ⟨h0, hdepth⟩
  · rw [enter_full room h0] at h
    cases h

end Document

namespace Tree
open Document

theorem admits_of_ofDocument {room : Room} {d : Document} {t : Tree}
    (h : Record.ofDocument room d = .ok t.toRecord) : room.Admits t.depth := by
  induction t generalizing room d with
  | operand s =>
    obtain ⟨inner, hroom, -⟩ := Record.ofDocument_children h
    exact (admits_of_enter hroom).1
  | node op l r ihl ihr =>
    obtain ⟨inner, hroom, hchild⟩ := Record.ofDocument_children h
    obtain ⟨dl, hl⟩ := hchild l.toRecord (.inl rfl)
    obtain ⟨dr, hr⟩ := hchild r.toRecord (.inr rfl)
    rw [depth, (admits_of_enter hroom).2]
    exact (Room.admits_max _ _ _).mpr ⟨ihl hl, ihr hr⟩

theorem ofText_eq_ok {s : String} {t : Tree} (h : ofText s = .ok t) :
    t.depth ≤ 126 ∧ "" ∉ t.operands := by
  obtain ⟨r, hr, ht⟩ := bind_eq_ok.mp h
  obtain ⟨rfl, ho⟩ := ofRecord_eq_ok_iff.mp ht
  have hroot := (JsonText.read_eq_ok.mp (mapError_eq_ok.mp hr)).1
  exact ⟨(textRoom_admits t.depth).mp (admits_of_ofDocument hroot), ho⟩

theorem ofJson_eq_ok {v : Json} {t : Tree} (h : ofJson v = .ok t) : "" ∉ t.operands := by
  obtain ⟨r, -, ht⟩ := bind_eq_ok.mp h
  exact (ofRecord_eq_ok_iff.mp ht).2

def rewrite (s : String) : Except Fault String := (ofText s).map fun t => t.record.render

/-- What is read from a text, in whatever spelling, has no empty operand and is at most 126 levels
deep, and so it is read again from the text that is written of it; writing changes that text no
more. What is read from a value comes back from the value that is made of it, at any depth. -/
theorem restored_stores_again :
    (∀ s t, ofText s = .ok t → "" ∉ t.operands ∧ t.depth ≤ 126 ∧
      ofText t.record.render = .ok t ∧ ofText t.toJson.render = .ok t) ∧
    (∀ s w, rewrite s = .ok w → rewrite w = .ok w) ∧
    ∀ v t, ofJson v = .ok t → "" ∉ t.operands ∧ ofJson t.toJson = .ok t := by
  have hstored (s : String) (t : Tree) (h : ofText s = .ok t) :
      ofText t.record.render = .ok t ∧ ofText t.toJson.render = .ok t :=
    ⟨(record_storing.ofText_eq_ok_iff t).mpr (ofText_eq_ok h),
      (toJson_storing.ofText_eq_ok_iff t).mpr (ofText_eq_ok h)⟩
  refine ⟨fun s t h => ?_, fun s w h => ?_, fun v t h => ?_⟩
  · exact ⟨(ofText_eq_ok h).2, (ofText_eq_ok h).1, hstored s t h⟩
  · obtain ⟨t, ht, rfl⟩ := map_eq_ok.mp h
    exact map_eq_ok.mpr ⟨t, (hstored s t ht).1, rfl⟩
  · exact ⟨ofJson_eq_ok h, (ofJson_toJson_eq_ok_iff t).mpr (ofJson_eq_ok h)⟩

theorem restored_stores_again_spelled :
    let s := "[\"operator\", \">=\", \x7b\"note\": [null], \"value\": \"\\u0061ge\", " ++
      "\"type\": \"operand\"\x7d, [\"operand\", \"18\", null]]"
    let t := node .ge (operand "age") (operand "18")
    ofText s = .ok t ∧ ofText t.record.render = .ok t ∧
      rewrite t.record.render = .ok t.record.render := by
  intro s t
  have h : ofText s = .ok t := by decide +kernel
  have hw : rewrite s = .ok t.record.render := map_eq_ok.mpr ⟨t, h, rfl⟩
  exact ⟨h, (restored_stores_again.1 s t h).2.2.1, restored_stores_again.2.1 s _ hw⟩

end Tree
end Rulebook
