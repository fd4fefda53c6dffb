import Rulebook.Proofs.Record.Members

/-! A record may be read from a text or from the value of that text, where the members stand in
another order and only the last of a key is left. Both ways find the same record. -/

namespace Rulebook
namespace Record
open Document

def Fresh (es : Entries Json) (ms : Members) : Prop :=
  ms.keys.Nodup ∧ ∀ k ∈ ms.keys, k ∉ es.map Prod.fst

theorem Fresh.tail {es : Entries Json} {k : String} {d : Document} {ms : Members}
    (h : Fresh es (.member (.ok k) d ms)) (v : Json) :
    Fresh (Entries.insert k v es) ms := by
  obtain ⟨hnodup, hnew⟩ := h
  obtain ⟨hk, hnodup⟩ := List.nodup_cons.mp hnodup
  refine ⟨hnodup, fun k' hk' hmem => ?_⟩
  obtain ⟨e, he, rfl⟩ := List.mem_map.mp hmem
  rcases Entries.mem_insert he with rfl | he
  · exact hk hk'
  · exact hnew e.1 (List.mem_cons_of_mem _ hk') (List.mem_map_of_mem he)

/-- Members behind others whose value holds what they hold: no key is given twice, or they are read
as parts of one record. -/
def Plain (room : Room) (es : Entries Json) (ms : Members) : Prop :=
  (membersDistinct ms ∧ Fresh es ms) ∨
    ∃ p q, takeAll es .empty = some p ∧ ofMembers room p ms = .ok q

section
variable {room : Room} {es : Entries Json} {k : String} {d : Document} {ms : Members}

theorem Plain.head (h : Plain room es (.member (.ok k) d ms)) (hskip : d.skip = .ok ()) :
    (Slot.ofKey? k = none ∨ k ∉ es.map Prod.fst) ∧
      (Slot.ofKey? k = none ∨ d.distinct ∨ ∃ r, ofDocument room d = .ok r) := by
  rcases h with ⟨hd, hfresh⟩ | ⟨p, q, hp, hq⟩
  · rw [membersDistinct, Bool.and_eq_true] at hd
    exact ⟨.inr (hfresh.2 k List.mem_cons_self), .inr (.inl hd.1)⟩
  · rw [← toOption_eq_some, ofMembers_take room p k ms hskip] at hq
    obtain ⟨p', hp', -⟩ := Option.bind_eq_some_iff.mp hq
    exact new_of_take hp hp'

theorem Plain.tail (h : Plain room es (.member (.ok k) d ms)) (hskip : d.skip = .ok ()) {v : Json}
    (hins : takeAll (Entries.insert k v es) .empty = (takeAll es .empty).bind (take room k d)) :
    Plain room (Entries.insert k v es) ms := by
  rcases h with ⟨hd, hfresh⟩ | ⟨p, q, hp, hq⟩
  · rw [membersDistinct, Bool.and_eq_true] at hd
    exact .inl ⟨hd.2, hfresh.tail v⟩
  · rw [← toOption_eq_some, ofMembers_take room p k ms hskip] at hq
    obtain ⟨p', hp', hq⟩ := Option.bind_eq_some_iff.mp hq
    rw [hp] at hins
    exact .inr ⟨p', q, hins.trans hp', toOption_eq_some.mp hq⟩

end

theorem ofItems_place (room : Room) (p : Draft) (place : Nat) (d : Document) (is : Items) :
    (ofItems room p place (.item d is)).toOption = (Slot.ofPlace? place).bind fun slot =>
      (Part.read slot d (ofDocument room d)).toOption.bind fun x =>
        (ofItems room (p.put x) (place + 1) is).toOption := by
  rw [ofItems]
  cases Slot.ofPlace? place with
  | none => rfl
  | some slot =>
    rw [toOption_bind, Draft.fill_eq, toOption_map, Option.bind_map]
    rfl

theorem ofDocument_array {room inner : Room} (h : enter room = .ok inner) (is : Items) :
    ofDocument room (.array is) = ofItems inner .empty 0 is >>= Draft.finish := by
  rw [ofDocument, h]
  rfl

theorem ofDocument_object {room inner : Room} (h : enter room = .ok inner) (ms : Members) :
    ofDocument room (.object ms) = ofMembers inner .empty ms >>= Draft.finish := by
  rw [ofDocument, h]
  rfl

/- Items are read with the draft and the place of those before them. Members are read behind entries,
which hold the members before them, but in the order of their keys. -/

mutual

/-- The value of a document holds the record that the document holds. Where keys are given twice,
it does so if the document holds one. -/
theorem ofDocument_value {room : Room} : ∀ {d : Document} {v : Json},
    Json.ofDocument room d = .ok v → (d.distinct ∨ ∃ r, ofDocument room d = .ok r) →
      (ofDocument none v.document).toOption = (ofDocument room d).toOption
  | .null, _, h, _ => by cases h; rfl
  | .boolean _, _, h, _ => by cases h; rfl
  | .number _, _, h, _ => by
    obtain ⟨n, rfl, rfl⟩ := map_eq_ok.mp h
    rfl
  | .text _, _, h, _ => by
    obtain ⟨s, rfl, rfl⟩ := map_eq_ok.mp h
    rfl
  | .broken _ _, _, h, _ => by cases h
  | .array is, v, h, hd => by
    rw [Json.ofDocument] at h
    obtain ⟨inner, hroom, h⟩ := bind_eq_ok.mp h
    obtain ⟨vs, hvs, h⟩ := bind_eq_ok.mp h
    cases h
    rw [ofDocument_array hroom] at hd ⊢
    rw [Json.document, ofDocument_array rfl, toOption_bind, toOption_bind]
    rw [ofItems_values .empty 0 hvs (hd.imp_right fun ⟨r, hr⟩ => ?_)]
    obtain ⟨p, hp, -⟩ := bind_eq_ok.mp hr
    exact ⟨p, hp⟩
  | .object ms, v, h, hd => by
    rw [Json.ofDocument] at h
    obtain ⟨inner, hroom, h⟩ := bind_eq_ok.mp h
    obtain ⟨es, hes, h⟩ := bind_eq_ok.mp h
    cases h
    rw [ofDocument_object hroom] at hd ⊢
    rw [Json.document, ofDocument_object rfl, toOption_bind, toOption_bind,
      ofMembers_membersDocument]
    rw [ofMembers_entries hes]
    · rfl
    · refine hd.imp (fun hd => ?_) fun ⟨r, hr⟩ => ?_
      · rw [distinct, Bool.and_eq_true, decide_eq_true_eq] at hd
        exact ⟨hd.2, hd.1, fun k _ => List.not_mem_nil⟩
      · obtain ⟨p, hp, -⟩ := bind_eq_ok.mp hr
        exact ⟨_, p, rfl, hp⟩

theorem ofItems_values {room : Room} : ∀ {is : Items} {vs : List Json} (p : Draft) (place : Nat),
    Json.ofItems room is = .ok vs → (itemsDistinct is ∨ ∃ q, ofItems room p place is = .ok q) →
      (ofItems none p place (Json.itemsDocument vs)).toOption = (ofItems room p place is).toOption
  | .done stop, vs, p, place, h, _ => by
    rw [Json.ofItems] at h
    obtain ⟨u, hstop, rfl⟩ := map_eq_ok.mp h
    rw [Json.itemsDocument, ofItems, ofItems, hstop]
    rfl
  | .item d is, vs, p, place, h, hd => by
    rw [Json.ofItems] at h
    obtain ⟨v, hv, h⟩ := bind_eq_ok.mp h
    obtain ⟨vs', hvs, h⟩ := bind_eq_ok.mp h
    cases h
    simp only [← toOption_eq_some, ofItems_place] at hd
    rw [Json.itemsDocument, ofItems_place, ofItems_place]
    cases hslot : Slot.ofPlace? place with
    | none => rfl
    | some slot =>
      simp only [hslot, Option.bind_some] at hd ⊢
      have hd' : d.distinct ∨ ∃ r, ofDocument room d = .ok r := by
        rcases hd with hd | ⟨q, hq⟩
        · rw [itemsDistinct, Bool.and_eq_true] at hd
          exact .inl hd.1
        · obtain ⟨x, hx, -⟩ := Option.bind_eq_some_iff.mp hq
          exact Part.distinct_or_child_of_read (toOption_eq_some.mp hx)
      rw [← Part.read_congr (alike_value hv) (ofDocument_value hv hd').symm]
      cases hx : (Part.read slot d (ofDocument room d)).toOption with
      | none => rfl
      | some x =>
        refine ofItems_values (p.put x) (place + 1) hvs (hd.imp (fun hd => ?_) fun ⟨q, hq⟩ => ?_)
        · rw [itemsDistinct, Bool.and_eq_true] at hd
          exact hd.2
        · rw [hx] at hq
          exact ⟨q, toOption_eq_some.mp hq⟩

theorem ofMembers_entries {room : Room} : ∀ {ms : Members} {es es' : Entries Json},
    Json.ofMembers room es ms = .ok es' → Plain room es ms →
      takeAll es' .empty = (takeAll es .empty).bind fun p => (ofMembers room p ms).toOption
  | .done stop, es, es', h, _ => by
    rw [Json.ofMembers] at h
    obtain ⟨u, hstop, rfl⟩ := map_eq_ok.mp h
    simp [ofMembers, hstop, Except.map, Except.toOption]
  | .member key d ms, es, es', h, hplain => by
    rw [Json.ofMembers] at h
    obtain ⟨k, rfl, hmember⟩ := bind_eq_ok.mp h
    obtain ⟨v, hv, hes⟩ := bind_eq_ok.mp hmember
    have hskip := skip_of_value hv
    obtain ⟨hkey, hdoc⟩ := hplain.head hskip
    -- A draft takes the same from the value as from the document, and may take a new key last.
    have htake : take none k v.document = take room k d :=
      (take_congr (alike_value hv) (hdoc.imp_right fun hdoc => (ofDocument_value hv hdoc).symm)).symm
    have hins := takeAll_insert v hkey .empty
    rw [htake] at hins
    rw [ofMembers_entries hes (hplain.tail hskip hins), hins, Option.bind_assoc]
    simp only [ofMembers_take room _ k ms hskip]

end

theorem ofJson_of_parse {s : String} {v : Json} (hv : Json.parse s = .ok v)
    (h : (JsonText.ofString s).root.distinct ∨
      ∃ r, (JsonText.ofString s).read (ofDocument textRoom) = .ok r) :
    (ofJson v).toOption = ((JsonText.ofString s).read (ofDocument textRoom)).toOption := by
  obtain ⟨hroot, hrest⟩ := JsonText.read_eq_ok.mp hv
  have hread : (JsonText.ofString s).read (ofDocument textRoom) =
      ofDocument textRoom (JsonText.ofString s).root := by
    rw [JsonText.read, hrest]
    cases ofDocument textRoom (JsonText.ofString s).root <;> rfl
  rw [hread] at h ⊢
  rw [← ofDocument_value hroot h, ofJson]
  cases ofDocument none v.document <;> rfl

end Record

namespace Tree
open Document

theorem read_ofDocument_eq_ok {s : String} {t : Tree} :
    (JsonText.ofString s).read (ofDocument textRoom) = .ok t ↔ ofText s = .ok t := by
  simp only [ofText, ofDocument, JsonText.read_eq_ok, bind_eq_ok, mapError_eq_ok]
  constructor
  · rintro ⟨⟨r, hr, ht⟩, hrest⟩
    exact ⟨r, ⟨hr, hrest⟩, ht⟩
  · rintro ⟨r, ⟨hr, hrest⟩, ht⟩
    exact ⟨⟨r, hr, ht⟩, hrest⟩

theorem ofJson_of_parse {s : String} {v : Json} (hv : Json.parse s = .ok v)
    (h : (JsonText.ofString s).root.distinct ∨
      ∃ r, (JsonText.ofString s).read (Record.ofDocument textRoom) = .ok r) :
    ofJson v = ofText s ∨
      ∃ g g', ofText s = .error (.json g) ∧ ofJson v = .error (.json g') := by
  have hrecord := Record.ofJson_of_parse hv h
  rw [ofJson, ofText]
  cases hs : (JsonText.ofString s).read (Record.ofDocument textRoom) with
  | ok r =>
    rw [hs] at hrecord
    rw [toOption_eq_some.mp hrecord]
    exact .inl rfl
  | error g =>
    rw [hs] at hrecord
    cases hv : Record.ofJson v with
    | ok r =>
      rw [hv] at hrecord
      cases hrecord
    | error g' => exact .inr ⟨g, g', rfl, rfl⟩

/-- Where no key is given twice, a tree is read from a text, from its value and as a part of a
document alike. Where none of them finds one, the first two report the same fault, or both that
there is no record. What is read from a text that gives a key twice is read from its value too. -/
theorem readers_agree :
    (∀ s v, Json.parse s = .ok v → (JsonText.ofString s).root.distinct →
      (∀ t, (ofText s = .ok t ↔ ofJson v = .ok t) ∧
        (ofText s = .ok t ↔ (JsonText.ofString s).read (ofDocument textRoom) = .ok t)) ∧
      ∀ f, ofText s = .error f →
        (ofJson v = .error f ∨ ∃ g g', f = .json g ∧ ofJson v = .error (.json g')) ∧
        ∃ g, (JsonText.ofString s).read (ofDocument textRoom) = .error g) ∧
    ∀ s v t, Json.parse s = .ok v → ofText s = .ok t → ofJson v = .ok t := by
  refine ⟨fun s v hv hd => ⟨fun t => ⟨?_, read_ofDocument_eq_ok.symm⟩, fun f hf => ⟨?_, ?_⟩⟩,
    fun s v t hv ht => ?_⟩
  · rcases ofJson_of_parse hv (.inl hd) with h | ⟨g, g', htext, hjson⟩
    · rw [h]
    · simp [htext, hjson]
  · rcases ofJson_of_parse hv (.inl hd) with h | ⟨g, g', htext, hjson⟩
    · exact .inl (h.trans hf)
    · rw [htext] at hf
      cases hf
      exact .inr ⟨g, g', rfl, hjson⟩
  · cases hread : (JsonText.ofString s).read (ofDocument textRoom) with
    | ok t =>
      rw [read_ofDocument_eq_ok.mp hread] at hf
      cases hf
    | error g => exact ⟨g, rfl⟩
  · obtain ⟨r, hr, -⟩ := bind_eq_ok.mp ht
    rcases ofJson_of_parse hv (.inr ⟨r, mapError_eq_ok.mp hr⟩) with h | ⟨g, -, htext, -⟩
    · exact h.trans ht
    · rw [htext] at ht
      cases ht

theorem readers_agree_unordered :
    let s := "\x7b\"right\": [\"operand\", \"18\", null], \"note\": \x7b\x7d, " ++
      "\"type\": \"operator\", \"left\": \x7b\"value\": \"\\u0061ge\", " ++
      "\"type\": \"operand\"\x7d, \"value\": \">\"\x7d"
    let t := node .gt (operand "age") (operand "18")
    ∃ v, Json.parse s = .ok v ∧ ofJson v = .ok t ∧
      (JsonText.ofString s).read (ofDocument textRoom) = .ok t := by
  intro s t
  obtain ⟨v, hv⟩ : ∃ v, Json.parse s = .ok v := exists_ok (by decide +kernel)
  have hs : ofText s = .ok t := by decide +kernel
  obtain ⟨hjson, hread⟩ := (readers_agree.1 s v hv (by decide +kernel)).1 t
  exact ⟨v, hv, hjson.mp hs, hread.mp hs⟩

end Tree
end Rulebook
