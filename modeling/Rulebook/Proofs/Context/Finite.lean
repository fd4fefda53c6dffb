import Rulebook.Context.Data
import Rulebook.Proofs.Entries
import Rulebook.Proofs.Json.Document
import Rulebook.Proofs.Json.Finite
import Rulebook.Proofs.Value

/-! Contexts that are read from JSON texts bind finite numbers only, and each equals itself. -/

namespace Rulebook

def Value.IsFinite : Value → Prop
  | .number x => x.IsFinite
  | _ => True

instance (v : Value) : Decidable v.IsFinite :=
  match v with
  | .number x => inferInstanceAs (Decidable x.IsFinite)
  | .boolean _ | .text _ => inferInstanceAs (Decidable True)

theorem Value.IsFinite.ne_nan {v : Value} (h : v.IsFinite) : v ≠ .number .nan := by
  rintro rfl
  exact h

theorem Value.ofDocument_eq_ok {room : Document.Room} {d : Document} {x : Value} :
    Value.ofDocument room d = .ok x ↔
      ∃ v, Json.ofDocument room d = .ok v ∧ Value.ofJson? v = some x := by
  rw [Value.ofDocument, bind_eq_ok]
  refine exists_congr fun v => and_congr_right fun _ => ?_
  cases hx : Value.ofJson? v with
  | none => simp
  | some y => simp [pure, Except.pure]

namespace Context
open Document
variable {c : Context}

def Finite (c : Context) : Prop := ∀ e ∈ c.entries, e.2.IsFinite

instance (c : Context) : Decidable c.Finite :=
  inferInstanceAs (Decidable (∀ e ∈ c.entries, e.2.IsFinite))

theorem finite_empty : Context.empty.Finite := by
  rintro e ⟨⟩

theorem Finite.insert (hc : c.Finite) {v : Value} (hv : v.IsFinite) (k : String) :
    (c.insert k v).Finite := by
  intro e he
  rcases Entries.mem_insert he with rfl | he
  · exact hv
  · exact hc e he

theorem Finite.get? (hc : c.Finite) {k : String} {v : Value} (h : c.get? k = some v) :
    v.IsFinite := hc (k, v) (Entries.mem_of_get? h)

theorem equal_map (c : Context) (f : Value → Value) :
    c.equal ⟨c.entries.map fun e => (e.1, f e.2), c.increasing.map f⟩ ↔
      ∀ e ∈ c.entries, e.2.equal (f e.2) := by
  have hzip : c.entries.zip (c.entries.map fun e => (e.1, f e.2)) =
      c.entries.map fun e => (e, e.1, f e.2) := by
    have hmap := List.zip_map' (f := id) (g := fun e => (e.1, f e.2)) (l := c.entries)
    rwa [List.map_id] at hmap
  simp [equal, size, hzip]

theorem Finite.equal_self (hc : c.Finite) : c.equal c := by
  have hmap := (c.equal_map id).mpr fun e he => Value.equal_self (hc e he).ne_nan
  simpa using hmap

/- Whatever reads a document without infinite numbers finds none. -/

theorem isFinite_ofJson? {room : Room} {d : Document} {v : Json} {x : Value} (hd : d.Finite)
    (hv : Json.ofDocument room d = .ok v) (hx : Value.ofJson? v = some x) : x.IsFinite := by
  cases d with
  | number n =>
    obtain ⟨m, rfl, rfl⟩ := map_eq_ok.mp hv
    cases hx
    exact hd
  | null => cases hv; cases hx
  | boolean b => cases hv; cases hx; trivial
  | text s =>
    obtain ⟨s, rfl, rfl⟩ := map_eq_ok.mp hv
    cases hx
    trivial
  | broken f g => cases hv
  | array is =>
    rw [Json.ofDocument] at hv
    obtain ⟨inner, -, hv⟩ := bind_eq_ok.mp hv
    obtain ⟨vs, -, hv⟩ := bind_eq_ok.mp hv
    cases hv
    cases hx
  | object ms =>
    rw [Json.ofDocument] at hv
    obtain ⟨inner, -, hv⟩ := bind_eq_ok.mp hv
    obtain ⟨es, -, hv⟩ := bind_eq_ok.mp hv
    cases hv
    cases hx

theorem finite_ofMembers {room : Room} : ∀ {ms : Members} {es es' : Entries Json},
    MembersFinite ms → Json.ofMembers room es ms = .ok es' →
    (∀ e ∈ es, ∀ x, Value.ofJson? e.2 = some x → x.IsFinite) →
    ∀ e ∈ es', ∀ x, Value.ofJson? e.2 = some x → x.IsFinite
  | .done stop, es, es', _, h, hes => by
    rw [Json.ofMembers] at h
    obtain ⟨u, -, rfl⟩ := map_eq_ok.mp h
    exact hes
  | .member key d ms, es, es', hfinite, h, hes => by
    rw [Json.ofMembers] at h
    obtain ⟨k, -, h⟩ := bind_eq_ok.mp h
    obtain ⟨v, hv, h⟩ := bind_eq_ok.mp h
    refine finite_ofMembers hfinite.2 h fun e he x hx => ?_
    rcases Entries.mem_insert he with rfl | he
    · exact isFinite_ofJson? hfinite.1 hv hx
    · exact hes e he x hx

theorem finite_bindMembers {c' : Context} {es : Entries Json}
    (hes : ∀ e ∈ es, ∀ x, Value.ofJson? e.2 = some x → x.IsFinite) (hc : c.Finite)
    (h : c.bindMembers es = .ok c') : c'.Finite := by
  induction es generalizing c with
  | nil =>
    cases h
    exact hc
  | cons e r ih =>
    obtain ⟨k, v⟩ := e
    rw [bindMembers] at h
    split at h
    · next x hx =>
      exact ih (fun e he => hes e (List.mem_cons_of_mem _ he))
        (hc.insert (hes _ List.mem_cons_self x hx) k) h
    · cases h

theorem finite_bindDocument {room : Room} : ∀ {ms : Members} {c c' : Context},
    MembersFinite ms → c.Finite → bindDocument room c ms = .ok c' → c'.Finite
  | .done stop, c, c', _, hc, h => by
    rw [bindDocument] at h
    obtain ⟨u, -, rfl⟩ := map_eq_ok.mp h
    exact hc
  | .member key d ms, c, c', hfinite, hc, h => by
    rw [bindDocument] at h
    obtain ⟨k, -, h⟩ := bind_eq_ok.mp h
    obtain ⟨x, hx, h⟩ := bind_eq_ok.mp h
    obtain ⟨v, hv, hx⟩ := Value.ofDocument_eq_ok.mp hx
    exact finite_bindDocument hfinite.2 (hc.insert (isFinite_ofJson? hfinite.1 hv hx) k) h

/- Both readers take an object that stands alone in its text. -/

theorem ofText_eq_ok {s : String} :
    ofText s = .ok c ↔ ∃ es, Json.parse s = .ok (.object es) ∧ bindMembers .empty es = .ok c := by
  rw [ofText, bind_eq_ok]
  constructor
  · rintro ⟨v, hv, h⟩
    cases v with
    | object es => exact ⟨es, mapError_eq_ok.mp hv, h⟩
    | _ => cases h
  · rintro ⟨es, hes, h⟩
    exact ⟨_, mapError_eq_ok.mpr hes, h⟩

theorem parse_eq_object {s : String} {es : Entries Json} :
    Json.parse s = .ok (.object es) ↔
      ∃ ms, JsonText.ofString s = ⟨.object ms, false⟩ ∧
        Json.ofMembers (some 126) [] ms = .ok es := by
  rw [Json.parse, JsonText.read_eq_ok, Json.ofDocument_eq_object]
  generalize JsonText.ofString s = t
  obtain ⟨root, trailing⟩ := t
  constructor
  · rintro ⟨⟨ms, inner, rfl, ⟨⟩, hes⟩, rfl⟩
    exact ⟨ms, rfl, hes⟩
  · rintro ⟨ms, ⟨⟩, hes⟩
    exact ⟨⟨ms, _, rfl, rfl, hes⟩, rfl⟩

theorem read_eq_ok {s : String} :
    (JsonText.ofString s).read (ofDocument textRoom) = .ok c ↔
      ∃ ms, JsonText.ofString s = ⟨.object ms, false⟩ ∧
        bindDocument (some 126) .empty ms = .ok c := by
  rw [JsonText.read_eq_ok]
  generalize JsonText.ofString s = t
  obtain ⟨root, trailing⟩ := t
  constructor
  · rintro ⟨h, rfl⟩
    cases root with
    | object ms => exact ⟨ms, rfl, h⟩
    | _ => cases h
  · rintro ⟨ms, ⟨⟩, h⟩
    exact ⟨h, rfl⟩

theorem finite_members {s : String} {ms : Members} (h : JsonText.ofString s = ⟨.object ms, false⟩) :
    MembersFinite ms := by
  have hfinite := JsonText.finite_ofString s
  rw [h] at hfinite
  exact hfinite

theorem finite_ofText {s : String} (h : ofText s = .ok c) : c.Finite := by
  obtain ⟨es, hes, hc⟩ := ofText_eq_ok.mp h
  obtain ⟨ms, hroot, hes⟩ := parse_eq_object.mp hes
  exact finite_bindMembers (finite_ofMembers (finite_members hroot) hes (by rintro e ⟨⟩))
    finite_empty hc

theorem finite_read {s : String} (h : (JsonText.ofString s).read (ofDocument textRoom) = .ok c) :
    c.Finite := by
  obtain ⟨ms, hroot, hc⟩ := read_eq_ok.mp h
  exact finite_bindDocument (finite_members hroot) finite_empty hc

end Context
end Rulebook
