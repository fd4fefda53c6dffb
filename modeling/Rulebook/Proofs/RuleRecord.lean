import Rulebook.Proofs.Stored
import Rulebook.Proofs.Timestamp
import Rulebook.RuleRecord

/-! Stored rule records. A record is one level around its tree, so the deepest tree that a text
can hold does not fit into a record. -/

namespace Rulebook.RuleRecord
open Document

theorem record_stable (r : RuleRecord) : r.record.Stable := by
  simp [record, Json.Stable, Json.MembersStable, Tree.record_stable]

theorem ofMembers_slot (room : Room) (p : Draft) (k : String) (slot : Slot) (d : Document)
    (ms : Members) (hk : Slot.ofKey? k = some slot) (hp : p.has slot = false) :
    ofMembers room p (.member (.ok k) d ms) =
      p.fill room slot d >>= fun p => ofMembers room p ms := by
  rw [ofMembers]
  simp [hk, hp, bind, Except.bind]

theorem readTime_render (t : Timestamp) (h : t.Valid) :
    Draft.readTime (.text (.ok t.render)) = .ok t := by
  have hread : Timestamp.read? t.render.toList = some t := by
    rw [Timestamp.render, String.toList_ofList]
    exact Timestamp.read?_write t h
  simp [Draft.readTime, readText, hread, bind, Except.bind, pure, Except.pure]

theorem ofDocument_record (later : Timestamp) (room : Room) (r : RuleRecord)
    (h : r.createdAt.Valid) : ofDocument later room r.record.document =
      enter room >>= fun room =>
        Tree.ofDocument room r.tree.record.document >>= fun t =>
          .ok ⟨r.id, r.rule, t, r.createdAt⟩ := by
  simp only [record, Json.document, Json.membersDocument]
  rw [ofDocument]
  cases enter room with
  | error f => rfl
  | ok room =>
    simp only [bind, Except.bind]
    rw [ofMembers_slot room .empty "id" .id _ _ rfl rfl]
    simp only [Draft.fill, readText, Except.map, bind, Except.bind]
    rw [ofMembers_slot room _ "rule" .rule _ _ rfl rfl]
    simp only [Draft.fill, readText, Except.map, bind, Except.bind]
    rw [ofMembers_slot room _ "ast" .tree _ _ rfl rfl, Draft.fill]
    cases Tree.ofDocument room r.tree.record.document with
    | error f => rfl
    | ok t =>
      simp only [Except.map, bind, Except.bind]
      rw [ofMembers_slot room _ "created_at" .createdAt _ _ rfl rfl, Draft.fill,
        readTime_render r.createdAt h]
      rfl

theorem ofText_cases (later : Timestamp) (r : RuleRecord) (h : r.createdAt.Valid)
    (ho : "" ∉ r.tree.operands) :
    (r.tree.depth ≤ 125 → ofText later r.record.render = .ok r) ∧
    (125 < r.tree.depth → ofText later r.record.render = .error .malformed) := by
  have htext : ofText later r.record.render =
      Tree.ofDocument (some 126) r.tree.record.document >>= fun t =>
        .ok ⟨r.id, r.rule, t, r.createdAt⟩ := by
    rw [ofText, JsonText.read_render _ (record_stable r), ofDocument_record later _ r h]
    rfl
  have hread := Tree.record_storing.ofDocument_cases r.tree (some 126)
  rw [Room.admits_some] at hread
  rw [htext, Tree.ofDocument]
  refine ⟨fun hd => ?_, fun hd => ?_⟩
  · rw [hread.1 (by omega)]
    simp only [bind, Except.bind, (Tree.ofRecord_toRecord r.tree).1 ho]
    rfl
  · rw [hread.2 (by omega)]
    rfl

end Rulebook.RuleRecord
