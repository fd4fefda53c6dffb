import Rulebook.Proofs.Json.Document
import Rulebook.Proofs.Record.Draft

/-! What the members of an object make of a draft. It does not matter in which order they stand, nor
whether they come from a text or from a value. -/

namespace Rulebook
namespace Record
open Document

namespace Part

/-- A part does not depend on how its document spells it, nor on the fault of a child. -/
theorem read_congr {slot : Slot} {d d' : Document} {child child' : Except JsonFault Record}
    (h : d.Alike d') (hchild : child.toOption = child'.toOption) :
    (read slot d child).toOption = (read slot d' child').toOption := by
  have hheld : (held d child).toOption = (held d' child').toOption := by
    rcases h with rfl | ⟨h, h'⟩
    · cases d with
      | null => rfl
      | _ => simp only [held, toOption_map, hchild]
    · cases d <;> cases h <;> cases d' <;> cases h' <;> simp only [held, toOption_map, hchild]
  cases slot with
  | type | value =>
    rcases h with rfl | ⟨h, h'⟩
    · rfl
    · cases d <;> cases h <;> cases d' <;> cases h' <;> rfl
  | left => simp only [read, toOption_map, hheld]
  | right => simp only [read, toOption_map, hheld]

theorem distinct_or_child_of_read {slot : Slot} {d : Document} {child : Except JsonFault Record}
    {x : Part} (h : read slot d child = .ok x) : d.distinct ∨ ∃ r, child = .ok r := by
  cases d with
  | array _ | object _ =>
    cases slot with
    | type | value => cases h
    | left | right =>
      obtain ⟨_, h, -⟩ := map_eq_ok.mp h
      obtain ⟨r, hr, -⟩ := map_eq_ok.mp h
      exact .inr ⟨r, hr⟩
  | _ => exact .inl rfl

end Part

namespace Draft

def give (p : Draft) (x : Part) : Option Draft := if p.has x.slot then none else some (p.put x)

theorem give_eq_some {p q : Draft} {x : Part} (h : p.give x = some q) :
    p.has x.slot = false ∧ p.put x = q := by
  unfold give at h
  split at h
  · cases h
  · next hp => exact ⟨Bool.not_eq_true _ ▸ hp, Option.some.inj h⟩

theorem give_comm (p : Draft) (x y : Part) :
    (p.give x).bind (give · y) = (p.give y).bind (give · x) := by
  by_cases h : x.slot = y.slot
  · cases hp : p.has y.slot <;> simp [give, has_put, h, hp]
  · have hput := put_comm p h
    cases hx : p.has x.slot <;> cases hy : p.has y.slot <;>
      simp [give, has_put, h, Ne.symm h, hx, hy, hput]

end Draft

/-- What a member makes of a draft. A key that no slot has is passed over. -/
def take (room : Room) (k : String) (d : Document) (p : Draft) : Option Draft :=
  match Slot.ofKey? k with
  | none => some p
  | some slot => (Part.read slot d (ofDocument room d)).toOption.bind p.give

section
variable {room : Room} {k : String} {d : Document}

theorem take_none (hk : Slot.ofKey? k = none) : take room k d = some := by
  funext p
  simp only [take, hk]

theorem take_some {slot : Slot} (hk : Slot.ofKey? k = some slot) :
    take room k d = fun p => (Part.read slot d (ofDocument room d)).toOption.bind p.give := by
  funext p
  simp only [take, hk]

theorem take_eq_some {p q : Draft} {slot : Slot} (hk : Slot.ofKey? k = some slot)
    (h : take room k d p = some q) :
    p.has slot = false ∧ ∃ x, Part.read slot d (ofDocument room d) = .ok x ∧ p.put x = q := by
  rw [take_some hk] at h
  obtain ⟨x, hx, h⟩ := Option.bind_eq_some_iff.mp h
  obtain ⟨hp, hq⟩ := Draft.give_eq_some h
  have hx := toOption_eq_some.mp hx
  exact ⟨Part.slot_of_read hx ▸ hp, x, hx, hq⟩

theorem has_of_take {p q : Draft} {slot : Slot} (h : take room k d p = some q)
    (hp : p.has slot ∨ Slot.ofKey? k = some slot) : q.has slot := by
  cases hk : Slot.ofKey? k with
  | none =>
    rw [take_none hk] at h
    cases h
    exact hp.resolve_right (by simp [hk])
  | some slot' =>
    obtain ⟨-, x, hx, rfl⟩ := take_eq_some hk h
    rw [Draft.has_put, Part.slot_of_read hx]
    rcases hp with hp | hp
    · simp [hp]
    · simp [Option.some.inj (hk.symm.trans hp)]

end

theorem ofMembers_take (room : Room) (p : Draft) (k : String) {d : Document} (ms : Members)
    (hskip : d.skip = .ok ()) :
    (ofMembers room p (.member (.ok k) d ms)).toOption =
      (take room k d p).bind fun p => (ofMembers room p ms).toOption := by
  cases hk : Slot.ofKey? k with
  | none =>
    rw [ofMembers, take_none hk]
    simp [bind, Except.bind, hk, hskip]
  | some slot =>
    cases hp : p.has slot with
    | false =>
      rw [ofMembers_slot room p k slot d ms hk hp, toOption_bind, Draft.fill_eq, take_some hk]
      cases hx : Part.read slot d (ofDocument room d) with
      | error f => rfl
      | ok x => simp [Except.map, Except.toOption, Draft.give, Part.slot_of_read hx, hp]
    | true =>
      rw [ofMembers, take_some hk]
      cases hx : Part.read slot d (ofDocument room d) with
      | error f => simp [bind, Except.bind, hk, hp, Except.toOption]
      | ok x => simp [bind, Except.bind, hk, hp, Except.toOption, Draft.give, Part.slot_of_read hx]

theorem take_comm (room : Room) (p : Draft) (k k' : String) (d d' : Document) :
    (take room k d p).bind (take room k' d') = (take room k' d' p).bind (take room k d) := by
  cases hk : Slot.ofKey? k with
  | none => simp [take_none hk]
  | some slot =>
    cases hk' : Slot.ofKey? k' with
    | none => simp [take_none hk']
    | some slot' =>
      rw [take_some hk, take_some hk']
      cases (Part.read slot d (ofDocument room d)).toOption with
      | none => simp
      | some x =>
        cases (Part.read slot' d' (ofDocument room d')).toOption with
        | none => simp
        | some y => exact Draft.give_comm p x y

theorem take_congr {room room' : Room} {k : String} {d d' : Document} (h : d.Alike d')
    (hchild : Slot.ofKey? k = none ∨
      (ofDocument room d).toOption = (ofDocument room' d').toOption) :
    take room k d = take room' k d' := by
  cases hk : Slot.ofKey? k with
  | none => rw [take_none hk, take_none hk]
  | some slot =>
    have hchild := hchild.resolve_left (by simp [hk])
    rw [take_some hk, take_some hk, Part.read_congr h hchild]

def takeAll : Entries Json → Draft → Option Draft
  | [], p => some p
  | (k, v) :: r, p => (take none k v.document p).bind (takeAll r)

theorem ofMembers_membersDocument (es : Entries Json) (p : Draft) :
    (ofMembers none p (Json.membersDocument es)).toOption = takeAll es p := by
  induction es generalizing p with
  | nil => rfl
  | cons e r ih =>
    obtain ⟨k, v⟩ := e
    rw [Json.membersDocument, ofMembers_take none p k _ (Json.skip_document v), takeAll, funext ih]

theorem has_of_takeAll {es : Entries Json} {p q : Draft} {slot : Slot} (h : takeAll es p = some q)
    (hp : p.has slot ∨ ∃ k ∈ es.map Prod.fst, Slot.ofKey? k = some slot) : q.has slot := by
  induction es generalizing p with
  | nil =>
    cases h
    simpa using hp
  | cons e r ih =>
    obtain ⟨k, v⟩ := e
    obtain ⟨p', hp', h⟩ := Option.bind_eq_some_iff.mp h
    refine ih h ?_
    rw [List.map_cons, List.exists_mem_cons_iff, ← or_assoc] at hp
    exact hp.imp_left (has_of_take hp')

theorem take_takeAll (es : Entries Json) (k : String) (d : Document) (p : Draft) :
    (take none k d p).bind (takeAll es) = (takeAll es p).bind (take none k d) := by
  induction es generalizing p with
  | nil => simp [takeAll]
  | cons e r ih =>
    obtain ⟨k', v⟩ := e
    calc (take none k d p).bind (fun p => (take none k' v.document p).bind (takeAll r))
        = ((take none k d p).bind (take none k' v.document)).bind (takeAll r) :=
          (Option.bind_assoc ..).symm
      _ = (take none k' v.document p).bind fun p => (take none k d p).bind (takeAll r) := by
          rw [take_comm, Option.bind_assoc]
      _ = ((take none k' v.document p).bind (takeAll r)).bind (take none k d) := by
          rw [funext ih, Option.bind_assoc]

theorem takeAll_insert {k : String} {es : Entries Json} (v : Json)
    (hk : Slot.ofKey? k = none ∨ k ∉ es.map Prod.fst) (p : Draft) :
    takeAll (Entries.insert k v es) p = (takeAll es p).bind (take none k v.document) := by
  induction es generalizing p with
  | nil => simp [Entries.insert, takeAll]
  | cons e r ih =>
    obtain ⟨k', v'⟩ := e
    rw [Entries.insert]
    split
    · exact take_takeAll ((k', v') :: r) k v.document p
    · split
      · next heq =>
        -- Only a key that no slot has may be given again.
        have hnone := hk.resolve_right (by simp [heq])
        simp [takeAll, take_none hnone, take_none (heq ▸ hnone)]
      · have hr : Slot.ofKey? k = none ∨ k ∉ r.map Prod.fst :=
          hk.imp_right fun hk hr => hk (List.mem_cons_of_mem _ hr)
        rw [takeAll, takeAll, funext (ih hr), Option.bind_assoc]

theorem new_of_take {room : Room} {es : Entries Json} {k : String} {d : Document} {p q : Draft}
    (hp : takeAll es .empty = some p) (h : take room k d p = some q) :
    (Slot.ofKey? k = none ∨ k ∉ es.map Prod.fst) ∧
      (Slot.ofKey? k = none ∨ d.distinct ∨ ∃ r, ofDocument room d = .ok r) := by
  cases hk : Slot.ofKey? k with
  | none => exact ⟨.inl rfl, .inl rfl⟩
  | some slot =>
    obtain ⟨hfree, x, hx, -⟩ := take_eq_some hk h
    refine ⟨.inr fun hmem => ?_, .inr (Part.distinct_or_child_of_read hx)⟩
    -- A key of the draft would have filled its slot.
    have hfull := has_of_takeAll hp (.inr ⟨k, hmem, hk⟩)
    rw [hfree] at hfull
    cases hfull

end Record
end Rulebook
