import Rulebook.Proofs.Json.Reading
import Rulebook.Proofs.Record.Judgement

/-! Stored trees and what is read from them. A stored tree is read back if it nests no deeper than
a text may and no operand of it is empty. -/

namespace Rulebook

namespace Document

def Room.Admits (room : Room) (depth : Nat) : Prop := ∀ n ∈ room, depth < n

theorem Room.admits_none (depth : Nat) : Room.Admits none depth := by simp [Room.Admits]

theorem Room.admits_some (n depth : Nat) : Room.Admits (some n) depth ↔ depth < n := by
  simp [Room.Admits]

theorem Room.admits_max (room : Room) (a b : Nat) :
    room.Admits (max a b) ↔ room.Admits a ∧ room.Admits b := by
  simp only [Room.Admits, Nat.max_lt]
  exact ⟨fun h => ⟨fun n hn => (h n hn).1, fun n hn => (h n hn).2⟩,
    fun h n hn => ⟨h.1 n hn, h.2 n hn⟩⟩

theorem Room.admits_of_le (room : Room) (a b : Nat) (hab : a ≤ b) (h : room.Admits b) :
    room.Admits a := fun n hn => Nat.lt_of_le_of_lt hab (h n hn)

theorem enter_admits (room : Room) (h : room.Admits 0) :
    ∃ inner, enter room = .ok inner ∧ ∀ d, room.Admits (1 + d) ↔ Room.Admits inner d := by
  cases room with
  | none => exact ⟨none, rfl, fun d => by simp [Room.admits_none]⟩
  | some n =>
    cases n with
    | zero => exact absurd ((Room.admits_some 0 0).mp h) (by omega)
    | succ n =>
      refine ⟨some n, rfl, fun d => ?_⟩
      rw [Room.admits_some, Room.admits_some]
      omega

theorem enter_full (room : Room) (h : ¬ room.Admits 0) : enter room = .error .malformed := by
  cases room with
  | none => exact absurd (Room.admits_none 0) h
  | some n =>
    cases n with
    | zero => rfl
    | succ n => exact absurd ((Room.admits_some (n + 1) 0).mpr (by omega)) h

theorem textRoom_admits (depth : Nat) : Room.Admits textRoom depth ↔ depth ≤ 126 := by
  rw [textRoom, Room.admits_some]
  omega

end Document

open Document

namespace Record

theorem ofMembers_slot (room : Room) (p : Draft) (k : String) (slot : Slot) (d : Document)
    (r : Members) (hk : Slot.ofKey? k = some slot) (hp : p.has slot = false) :
    ofMembers room p (.member (.ok k) d r) =
      p.fill slot d (ofDocument room d) >>= fun p => ofMembers room p r := by
  rw [ofMembers.eq_2]
  simp [hk, hp, bind, Except.bind]

theorem ofMembers_type (room : Room) (p : Draft) (s : String) (r : Members)
    (hp : p.type = none) :
    ofMembers room p (.member (.ok "type") (.text (.ok s)) r) =
      ofMembers room ⟨some s, p.value, p.left, p.right⟩ r := by
  rw [ofMembers_slot room p "type" .type _ r rfl (by simp [Draft.has, hp])]
  rfl

theorem ofMembers_value (room : Room) (p : Draft) (s : String) (r : Members)
    (hp : p.value = none) :
    ofMembers room p (.member (.ok "value") (.text (.ok s)) r) =
      ofMembers room ⟨p.type, some (some s), p.left, p.right⟩ r := by
  rw [ofMembers_slot room p "value" .value _ r rfl (by simp [Draft.has, hp])]
  rfl

theorem ofMembers_left (room : Room) (p : Draft) (ms r : Members) (hp : p.left = none) :
    ofMembers room p (.member (.ok "left") (.object ms) r) =
      ofDocument room (.object ms) >>= fun c =>
        ofMembers room ⟨p.type, p.value, some (some c), p.right⟩ r := by
  rw [ofMembers_slot room p "left" .left _ r rfl (by simp [Draft.has, hp])]
  cases ofDocument room (.object ms) with
  | ok c => rfl
  | error f => rfl

theorem ofMembers_right (room : Room) (p : Draft) (ms r : Members) (hp : p.right = none) :
    ofMembers room p (.member (.ok "right") (.object ms) r) =
      ofDocument room (.object ms) >>= fun c =>
        ofMembers room ⟨p.type, p.value, p.left, some (some c)⟩ r := by
  rw [ofMembers_slot room p "right" .right _ r rfl (by simp [Draft.has, hp])]
  cases ofDocument room (.object ms) with
  | ok c => rfl
  | error f => rfl

end Record

namespace Tree

/-- A form in which trees are stored: a reader finds the parts of each record, the left child
before the right one, in a room that is one level smaller. -/
structure Storing (form : Tree → Json) : Prop where
  stable : ∀ t, (form t).Stable
  operand : ∀ room s, Record.ofDocument room (form (operand s)).document =
    (enter room).map fun _ => ⟨"operand", some s, none, none⟩
  node : ∀ room op l r, Record.ofDocument room (form (node op l r)).document =
    enter room >>= fun room =>
      Record.ofDocument room (form l).document >>= fun a =>
        Record.ofDocument room (form r).document >>= fun b =>
          .ok ⟨"operator", some op.symbol, some a, some b⟩

theorem record_object (t : Tree) : ∃ ms, t.record.document = .object ms := by
  cases t <;> exact ⟨_, rfl⟩

theorem toJson_object (t : Tree) : ∃ ms, t.toJson.document = .object ms := by
  cases t <;> exact ⟨_, rfl⟩

theorem record_stable (t : Tree) : t.record.Stable := by
  induction t with
  | operand s => simp [record, Json.Stable, Json.MembersStable]
  | node op l r ihl ihr => simp [record, Json.Stable, Json.MembersStable, ihl, ihr]

theorem toJson_stable (t : Tree) : t.toJson.Stable := by
  induction t with
  | operand s => simp [toJson, Json.Stable, Json.MembersStable]
  | node op l r ihl ihr => simp [toJson, Json.Stable, Json.MembersStable, ihl, ihr]

theorem record_storing : Storing record where
  stable := record_stable
  operand := by
    intro room s
    simp only [record, Json.document, Json.membersDocument, Record.ofDocument]
    cases enter room with
    | error f => rfl
    | ok room => rfl
  node := by
    intro room op l r
    obtain ⟨ls, hl⟩ := record_object l
    obtain ⟨rs, hr⟩ := record_object r
    simp only [record, Json.document, Json.membersDocument, hl, hr]
    rw [Record.ofDocument.eq_1]
    cases enter room with
    | error f => rfl
    | ok room =>
      simp only [bind, Except.bind]
      rw [Record.ofMembers_type _ _ _ _ rfl, Record.ofMembers_value _ _ _ _ rfl,
        Record.ofMembers_left _ _ _ _ rfl]
      cases Record.ofDocument room (.object ls) with
      | error f => rfl
      | ok a =>
        simp only [bind, Except.bind]
        rw [Record.ofMembers_right _ _ _ _ rfl]
        cases Record.ofDocument room (.object rs) with
        | error f => rfl
        | ok b => rfl

theorem toJson_storing : Storing toJson where
  stable := toJson_stable
  operand := by
    intro room s
    simp only [toJson, Json.document, Json.membersDocument, Record.ofDocument]
    cases enter room with
    | error f => rfl
    | ok room => rfl
  node := by
    intro room op l r
    obtain ⟨ls, hl⟩ := toJson_object l
    obtain ⟨rs, hr⟩ := toJson_object r
    simp only [toJson, Json.document, Json.membersDocument, hl, hr]
    rw [Record.ofDocument.eq_1]
    cases enter room with
    | error f => rfl
    | ok room =>
      simp only [bind, Except.bind]
      rw [Record.ofMembers_left _ _ _ _ rfl]
      cases Record.ofDocument room (.object ls) with
      | error f => rfl
      | ok a =>
        simp only [bind, Except.bind]
        rw [Record.ofMembers_right _ _ _ _ rfl]
        cases Record.ofDocument room (.object rs) with
        | error f => rfl
        | ok b =>
          simp only [bind, Except.bind]
          rw [Record.ofMembers_type _ _ _ _ rfl, Record.ofMembers_value _ _ _ _ rfl]
          rfl

theorem Storing.ofDocument_cases {form : Tree → Json} (h : Storing form) (t : Tree) (room : Room) :
    (room.Admits t.depth → Record.ofDocument room (form t).document = .ok t.toRecord) ∧
    (¬ room.Admits t.depth → Record.ofDocument room (form t).document = .error .malformed) := by
  induction t generalizing room with
  | operand s =>
    rw [h.operand, depth]
    constructor
    · intro ha
      obtain ⟨inner, hi, -⟩ := enter_admits room ha
      rw [hi]
      rfl
    · intro ha
      rw [enter_full room ha]
      rfl
  | node op l r ihl ihr =>
    rw [h.node, depth]
    -- A node takes one level for itself, and both sides are read in what is left of the room.
    by_cases h0 : room.Admits 0
    · obtain ⟨inner, hi, hd⟩ := enter_admits room h0
      have hmax : room.Admits (1 + max l.depth r.depth) ↔
          Room.Admits inner l.depth ∧ Room.Admits inner r.depth := by
        rw [hd]
        exact Room.admits_max inner l.depth r.depth
      rw [hmax, hi]
      constructor
      · rintro ⟨hl, hr⟩
        simp only [bind, Except.bind, (ihl inner).1 hl, (ihr inner).1 hr]
        rfl
      · intro hn
        -- The left side is read first, and if it fits, it is the right one that does not.
        by_cases hl : Room.Admits inner l.depth
        · have hr : ¬ Room.Admits inner r.depth := fun hr => hn ⟨hl, hr⟩
          simp only [bind, Except.bind, (ihl inner).1 hl, (ihr inner).2 hr]
        · simp only [bind, Except.bind, (ihl inner).2 hl]
    · rw [enter_full room h0]
      constructor
      · intro ha
        exact absurd (Room.admits_of_le room _ _ (Nat.zero_le _) ha) h0
      · intro _
        rfl

/-- What a reader makes of the text of a stored tree. Nesting is judged before operands are. -/
theorem Storing.ofText_cases {form : Tree → Json} (h : Storing form) (t : Tree) :
    (t.depth ≤ 126 → "" ∉ t.operands → ofText (form t).render = .ok t) ∧
    (126 < t.depth → ofText (form t).render = .error (.json .malformed)) ∧
    (t.depth ≤ 126 → "" ∈ t.operands →
      ofText (form t).render = .error (.record .literalMissing)) := by
  have hread := h.ofDocument_cases t textRoom
  rw [textRoom_admits] at hread
  have htext : ofText (form t).render =
      ((Record.ofDocument textRoom (form t).document).mapError .json) >>= ofRecord := by
    rw [ofText, JsonText.read_render _ (h.stable t)]
  rw [htext]
  refine ⟨fun hd ho => ?_, fun hd => ?_, fun hd ho => ?_⟩
  · rw [hread.1 hd]
    exact (ofRecord_toRecord t).1 ho
  · rw [hread.2 (by omega)]
    rfl
  · rw [hread.1 hd]
    exact (ofRecord_toRecord t).2 ho

theorem Storing.ofText_eq_ok_iff {form : Tree → Json} (h : Storing form) (t : Tree) :
    Tree.ofText (form t).render = .ok t ↔ t.depth ≤ 126 ∧ "" ∉ t.operands := by
  obtain ⟨hok, hdeep, hempty⟩ := h.ofText_cases t
  constructor
  · intro he
    have hd : t.depth ≤ 126 := by
      by_contra hn
      rw [hdeep (by omega)] at he
      simp at he
    refine ⟨hd, fun ho => ?_⟩
    rw [hempty hd ho] at he
    simp at he
  · rintro ⟨hd, ho⟩
    exact hok hd ho

theorem ofJson_toJson_eq_ok_iff (t : Tree) : ofJson t.toJson = .ok t ↔ "" ∉ t.operands := by
  have hread := (toJson_storing.ofDocument_cases t none).1 (Room.admits_none _)
  have hvalue : ofJson t.toJson = ofRecord t.toRecord := by
    rw [ofJson, Record.ofJson, hread]
    rfl
  rw [hvalue]
  constructor
  · intro he ho
    rw [(ofRecord_toRecord t).2 ho] at he
    simp at he
  · exact (ofRecord_toRecord t).1

/-- A tree comes back from its text, with its keys in either order, just if it is at most 126
levels deep and no operand is empty. From a value it comes back whatever its depth. -/
theorem stored_reads_back_iff (t : Tree) :
    (∀ v ∈ [t.record, t.toJson],
      (ofText v.render = .ok t ↔ t.depth ≤ 126 ∧ "" ∉ t.operands) ∧
      (126 < t.depth → ofText v.render = .error (.json .malformed)) ∧
      (t.depth ≤ 126 → "" ∈ t.operands → ofText v.render = .error (.record .literalMissing))) ∧
    (ofJson t.toJson = .ok t ↔ "" ∉ t.operands) := by
  refine ⟨fun v hv => ?_, ofJson_toJson_eq_ok_iff t⟩
  have hform : ∃ form, Storing form ∧ v = form t := by
    rcases List.mem_pair.mp hv with rfl | rfl
    · exact ⟨record, record_storing, rfl⟩
    · exact ⟨toJson, toJson_storing, rfl⟩
  obtain ⟨form, hs, rfl⟩ := hform
  exact ⟨hs.ofText_eq_ok_iff t, (hs.ofText_cases t).2⟩

end Tree
end Rulebook
