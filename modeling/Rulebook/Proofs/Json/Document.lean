import Rulebook.Json.Document
import Rulebook.Proofs.Outcome

/-! Documents and their values. What has a value can be passed over, and its value is alike. -/

namespace Rulebook

def Members.keys : Members → List String
  | .done _ => []
  | .member (.ok k) _ r => k :: r.keys
  | .member (.error _) _ r => r.keys

namespace Document

mutual

def distinct : Document → Bool
  | .array is => itemsDistinct is
  | .object ms => decide ms.keys.Nodup && membersDistinct ms
  | _ => true

def itemsDistinct : Items → Bool
  | .done _ => true
  | .item d r => d.distinct && itemsDistinct r

def membersDistinct : Members → Bool
  | .done _ => true
  | .member _ d r => d.distinct && membersDistinct r

end

def isNested : Document → Bool
  | .array _ | .object _ => true
  | _ => false

/-- The same scalar, or nested documents, which no slot but that of a child takes. -/
def Alike (d d' : Document) : Prop := d = d' ∨ d.isNested ∧ d'.isNested

theorem alike_value {room : Room} {d : Document} {v : Json} (h : Json.ofDocument room d = .ok v) :
    d.Alike v.document := by
  cases d with
  | null => cases h; exact .inl rfl
  | boolean b => cases h; exact .inl rfl
  | number n =>
    obtain ⟨m, rfl, rfl⟩ := map_eq_ok.mp h
    exact .inl rfl
  | text s =>
    obtain ⟨s, rfl, rfl⟩ := map_eq_ok.mp h
    exact .inl rfl
  | array is =>
    rw [Json.ofDocument] at h
    obtain ⟨inner, -, h⟩ := bind_eq_ok.mp h
    obtain ⟨vs, -, h⟩ := bind_eq_ok.mp h
    cases h
    exact .inr ⟨rfl, rfl⟩
  | object ms =>
    rw [Json.ofDocument] at h
    obtain ⟨inner, -, h⟩ := bind_eq_ok.mp h
    obtain ⟨es, -, h⟩ := bind_eq_ok.mp h
    cases h
    exact .inr ⟨rfl, rfl⟩
  | broken f g => cases h

mutual

theorem skip_of_value {room : Room} : ∀ {d : Document} {v : Json},
    Json.ofDocument room d = .ok v → d.skip = .ok ()
  | .null, _, _ => rfl
  | .boolean _, _, _ => rfl
  | .number _, _, _ => rfl
  | .text _, _, _ => rfl
  | .broken _ _, _, h => by cases h
  | .array is, v, h => by
    rw [Json.ofDocument] at h
    obtain ⟨inner, -, h⟩ := bind_eq_ok.mp h
    obtain ⟨vs, hvs, -⟩ := bind_eq_ok.mp h
    exact skipItems_of_values hvs
  | .object ms, v, h => by
    rw [Json.ofDocument] at h
    obtain ⟨inner, -, h⟩ := bind_eq_ok.mp h
    obtain ⟨es, hes, -⟩ := bind_eq_ok.mp h
    exact skipMembers_of_entries hes

theorem skipItems_of_values {room : Room} : ∀ {is : Items} {vs : List Json},
    Json.ofItems room is = .ok vs → skipItems is = .ok ()
  | .done stop, vs, h => by
    rw [Json.ofItems] at h
    obtain ⟨u, hstop, -⟩ := map_eq_ok.mp h
    exact hstop
  | .item d is, vs, h => by
    rw [Json.ofItems] at h
    obtain ⟨v, hv, h⟩ := bind_eq_ok.mp h
    obtain ⟨vs', hvs, -⟩ := bind_eq_ok.mp h
    exact bind_eq_ok.mpr ⟨(), skip_of_value hv, skipItems_of_values hvs⟩

theorem skipMembers_of_entries {room : Room} : ∀ {ms : Members} {es es' : Entries Json},
    Json.ofMembers room es ms = .ok es' → skipMembers ms = .ok ()
  | .done stop, es, es', h => by
    rw [Json.ofMembers] at h
    obtain ⟨u, hstop, -⟩ := map_eq_ok.mp h
    exact hstop
  | .member key d ms, es, es', h => by
    rw [Json.ofMembers] at h
    obtain ⟨k, -, h⟩ := bind_eq_ok.mp h
    obtain ⟨v, hv, h⟩ := bind_eq_ok.mp h
    exact bind_eq_ok.mpr ⟨(), skip_of_value hv, skipMembers_of_entries h⟩

end

end Document

namespace Json
open Document

theorem ofDocument_eq_object {room : Room} {d : Document} {es : Entries Json} :
    ofDocument room d = .ok (.object es) ↔
      ∃ ms inner, d = .object ms ∧ enter room = .ok inner ∧ ofMembers inner [] ms = .ok es := by
  constructor
  · intro h
    cases d with
    | object ms =>
      rw [ofDocument] at h
      obtain ⟨inner, hinner, h⟩ := bind_eq_ok.mp h
      obtain ⟨es', hes, h⟩ := bind_eq_ok.mp h
      cases h
      exact ⟨ms, inner, rfl, hinner, hes⟩
    | array is =>
      rw [ofDocument] at h
      obtain ⟨inner, -, h⟩ := bind_eq_ok.mp h
      obtain ⟨vs, -, h⟩ := bind_eq_ok.mp h
      cases h
    | number n =>
      obtain ⟨m, -, h⟩ := map_eq_ok.mp h
      cases h
    | text s =>
      obtain ⟨s, -, h⟩ := map_eq_ok.mp h
      cases h
    | _ => cases h
  · rintro ⟨ms, inner, rfl, hinner, hes⟩
    rw [ofDocument]
    exact bind_eq_ok.mpr ⟨inner, hinner, bind_eq_ok.mpr ⟨es, hes, rfl⟩⟩

mutual

theorem skip_document : ∀ v : Json, v.document.skip = .ok ()
  | .null => rfl
  | .boolean _ => rfl
  | .number _ => rfl
  | .text _ => rfl
  | .array vs => skipItems_itemsDocument vs
  | .object ms => skipMembers_membersDocument ms

theorem skipItems_itemsDocument : ∀ vs : List Json, skipItems (itemsDocument vs) = .ok ()
  | [] => rfl
  | v :: r => bind_eq_ok.mpr ⟨(), skip_document v, skipItems_itemsDocument r⟩

theorem skipMembers_membersDocument : ∀ ms : List (String × Json),
    skipMembers (membersDocument ms) = .ok ()
  | [] => rfl
  | (_, v) :: r => bind_eq_ok.mpr ⟨(), skip_document v, skipMembers_membersDocument r⟩

end

end Json

end Rulebook
