import Rulebook.Proofs.Context.Finite

/-! The two readers of evaluation data. One binds the members of an object as it meets them. The
other has them sorted first, where the last value of a key has replaced those before it. -/

namespace Rulebook

def Json.isScalar : Json → Bool
  | .boolean _ | .number _ | .text _ => true
  | _ => false

theorem Value.isSome_ofJson? (v : Json) : (Value.ofJson? v).isSome = v.isScalar := by
  cases v <;> rfl

theorem Json.increasing_ofMembers {room : Document.Room} : ∀ {ms : Members} {es es' : Entries Json},
    es.Increasing → Json.ofMembers room es ms = .ok es' → es'.Increasing
  | .done stop, es, es', hes, h => by
    rw [Json.ofMembers] at h
    obtain ⟨u, -, rfl⟩ := map_eq_ok.mp h
    exact hes
  | .member key d ms, es, es', hes, h => by
    rw [Json.ofMembers] at h
    obtain ⟨k, -, h⟩ := bind_eq_ok.mp h
    obtain ⟨v, -, h⟩ := bind_eq_ok.mp h
    exact increasing_ofMembers (hes.insert k v) h

theorem Json.get?_ofMembers {room : Document.Room} {k : String} : ∀ {ms : Members}
    {es es' : Entries Json}, k ∉ ms.keys → Json.ofMembers room es ms = .ok es' →
    es'.get? k = es.get? k
  | .done stop, es, es', _, h => by
    rw [Json.ofMembers] at h
    obtain ⟨u, -, rfl⟩ := map_eq_ok.mp h
    rfl
  | .member key d ms, es, es', hk, h => by
    rw [Json.ofMembers] at h
    obtain ⟨k', rfl, hmember⟩ := bind_eq_ok.mp h
    obtain ⟨v, -, h⟩ := bind_eq_ok.mp hmember
    rw [Members.keys, List.mem_cons, not_or] at hk
    rw [get?_ofMembers hk.2 h, Entries.get?_insert, if_neg hk.1]

namespace Context
open Document
variable {c c' d : Context} {es es' : Entries Json} {room : Room}

theorem ext (h : ∀ k, c.get? k = d.get? k) : c = d := by
  obtain ⟨es, hes⟩ := c
  obtain ⟨es', hes'⟩ := d
  obtain rfl := hes.ext hes' h
  rfl

/-- The context binds the values of these members, and nothing else. -/
def Holds (c : Context) (es : Entries Json) : Prop :=
  ∀ k, (es.get? k).map Value.ofJson? = (c.get? k).map some

theorem holds_empty : Context.empty.Holds [] := fun _ => rfl

theorem Holds.insert (h : c.Holds es) {v : Json} {x : Value} (hx : Value.ofJson? v = some x)
    (k : String) : (c.insert k x).Holds (Entries.insert k v es) := by
  intro k'
  rw [Entries.get?_insert, get?_insert]
  split
  · simp [hx]
  · exact h k'

theorem Holds.unique (hc : c.Holds es) (hd : d.Holds es) : c = d :=
  ext fun k => Option.map_injective (Option.some_injective _) ((hc k).symm.trans (hd k))

theorem Holds.get? (h : c.Holds es) {k : String} {v : Json} (hv : es.get? k = some v) :
    ∃ x, Value.ofJson? v = some x ∧ c.get? k = some x := by
  have hk := h k
  rw [hv] at hk
  cases hx : c.get? k with
  | none =>
    rw [hx] at hk
    cases hk
  | some x =>
    rw [hx] at hk
    exact ⟨x, Option.some.inj hk, rfl⟩

theorem Holds.isScalar (h : c.Holds es) (hes : es.Increasing) : ∀ e ∈ es, e.2.isScalar := by
  rintro ⟨k, v⟩ he
  obtain ⟨x, hx, -⟩ := h.get? (hes.get?_eq_some.mpr he)
  rw [← Value.isSome_ofJson?, hx]
  rfl

/- Sorted members are bound in their order, up to the first that is no value. -/

theorem bindMembers_of_isScalar (h : ∀ e ∈ es, e.2.isScalar) : ∃ c', c.bindMembers es = .ok c' := by
  induction es generalizing c with
  | nil => exact ⟨c, rfl⟩
  | cons e r ih =>
    have hx := h e List.mem_cons_self
    rw [← Value.isSome_ofJson?] at hx
    obtain ⟨x, hx⟩ := Option.isSome_iff_exists.mp hx
    rw [bindMembers, hx]
    exact ih fun e he => h e (List.mem_cons_of_mem _ he)

theorem get?_bindMembers (hes : es.Increasing) (h : c.bindMembers es = .ok c') (k : String) :
    (c'.get? k).map some =
      if (es.get? k).isSome then (es.get? k).map Value.ofJson? else (c.get? k).map some := by
  induction es generalizing c with
  | nil =>
    cases h
    rfl
  | cons e r ih =>
    obtain ⟨k', v⟩ := e
    obtain ⟨hr, ht⟩ := List.pairwise_cons.mp hes
    rw [bindMembers] at h
    cases hx : Value.ofJson? v with
    | none =>
      rw [hx] at h
      cases h
    | some x =>
      rw [hx] at h
      rw [ih ht h, Entries.get?, get?_insert]
      by_cases hk : k = k'
      · subst hk
        have hnone : Entries.get? k r = none := by
          refine Option.eq_none_iff_forall_ne_some.mpr fun w hw => ?_
          exact String.lt_irrefl _ (hr (k, w) (Entries.mem_of_get? hw))
        simp [hnone, hx]
      · simp only [if_neg hk]

theorem bindMembers_eq_ok (hes : es.Increasing) :
    Context.empty.bindMembers es = .ok c ↔ c.Holds es := by
  have hholds {c : Context} (h : Context.empty.bindMembers es = .ok c) : c.Holds es := by
    intro k
    rw [get?_bindMembers hes h]
    split
    · rfl
    · next hk => rw [Option.not_isSome_iff_eq_none.mp hk]; rfl
  refine ⟨hholds, fun h => ?_⟩
  obtain ⟨c', hc'⟩ := bindMembers_of_isScalar (c := .empty) (h.isScalar hes)
  rw [hc', (hholds hc').unique h]

theorem bindMembers_eq_error (h : ∃ e ∈ es, ¬ e.2.isScalar) (hes : es.Increasing) :
    ∃ k v, (k, v) ∈ es ∧ ¬ v.isScalar ∧ (∀ e ∈ es, ¬ e.2.isScalar → k ≤ e.1) ∧
      c.bindMembers es = .error (.data (.badField k v.render)) := by
  induction es generalizing c with
  | nil =>
    obtain ⟨e, he, -⟩ := h
    cases he
  | cons e r ih =>
    obtain ⟨k, v⟩ := e
    obtain ⟨hr, ht⟩ := List.pairwise_cons.mp hes
    rw [bindMembers]
    -- The first member that is no value has the least key of those, since the keys increase.
    cases hx : Value.ofJson? v with
    | none =>
      refine ⟨k, v, List.mem_cons_self, ?_, fun e he _ => ?_, rfl⟩
      · simp [← Value.isSome_ofJson?, hx]
      · rcases List.mem_cons.mp he with rfl | he
        · exact String.le_refl _
        · exact String.not_lt.mp (String.lt_asymm (hr e he))
    | some x =>
      have hscalar : v.isScalar := by simp [← Value.isSome_ofJson?, hx]
      have hrest : ∃ e ∈ r, ¬ e.2.isScalar := by
        obtain ⟨e, he, hbad⟩ := h
        rcases List.mem_cons.mp he with rfl | he
        · exact absurd hscalar hbad
        · exact ⟨e, he, hbad⟩
      obtain ⟨k', v', hmem, hbad, hleast, herror⟩ := ih (c := c.insert k x) hrest ht
      refine ⟨k', v', List.mem_cons_of_mem _ hmem, hbad, fun e he hbad => ?_, herror⟩
      rcases List.mem_cons.mp he with rfl | he
      · exact absurd hscalar hbad
      · exact hleast e he hbad

/- Members in the order of the text. -/

theorem ofMembers_of_bindDocument : ∀ {ms : Members} {c : Context} {es : Entries Json},
    bindDocument room c ms = .ok c' → c.Holds es →
    ∃ es', Json.ofMembers room es ms = .ok es' ∧ c'.Holds es'
  | .done stop, c, es, h, hc => by
    rw [bindDocument] at h
    obtain ⟨u, hstop, rfl⟩ := map_eq_ok.mp h
    exact ⟨es, by rw [Json.ofMembers, hstop]; rfl, hc⟩
  | .member key d ms, c, es, h, hc => by
    rw [bindDocument] at h
    obtain ⟨k, hk, h⟩ := bind_eq_ok.mp h
    obtain ⟨x, hx, h⟩ := bind_eq_ok.mp h
    obtain ⟨v, hv, hx⟩ := Value.ofDocument_eq_ok.mp hx
    obtain ⟨es', hes', hc'⟩ := ofMembers_of_bindDocument h (hc.insert hx k)
    exact ⟨es', by rw [Json.ofMembers]; exact bind_eq_ok.mpr ⟨k, hk, bind_eq_ok.mpr ⟨v, hv, hes'⟩⟩,
      hc'⟩

theorem bindDocument_of_ofMembers : ∀ {ms : Members} {c : Context} {es : Entries Json},
    Json.ofMembers room es ms = .ok es' → ms.keys.Nodup → c.Holds es → c'.Holds es' →
    bindDocument room c ms = .ok c'
  | .done stop, c, es, h, _, hc, hc' => by
    rw [Json.ofMembers] at h
    obtain ⟨u, hstop, rfl⟩ := map_eq_ok.mp h
    rw [bindDocument, hstop, hc.unique hc']
    rfl
  | .member key d ms, c, es, h, hkeys, hc, hc' => by
    rw [Json.ofMembers] at h
    obtain ⟨k, rfl, hmember⟩ := bind_eq_ok.mp h
    obtain ⟨v, hv, h⟩ := bind_eq_ok.mp hmember
    obtain ⟨hk, hkeys⟩ := List.nodup_cons.mp hkeys
    -- the value of a key that does not come again survives, so it has to be one for a field
    have hget : es'.get? k = some v := by
      rw [Json.get?_ofMembers hk h, Entries.get?_insert, if_pos rfl]
    obtain ⟨x, hx, -⟩ := hc'.get? hget
    rw [bindDocument]
    exact bind_eq_ok.mpr ⟨k, rfl, bind_eq_ok.mpr ⟨x, Value.ofDocument_eq_ok.mpr ⟨v, hv, hx⟩,
      bindDocument_of_ofMembers h hkeys (hc.insert hx k) hc'⟩⟩

theorem increasing_of_parse {s : String} (h : Json.parse s = .ok (.object es)) : es.Increasing := by
  obtain ⟨ms, -, hes⟩ := parse_eq_object.mp h
  exact Json.increasing_ofMembers List.Pairwise.nil hes

theorem ofText_eq_ok_iff_holds {s : String} :
    ofText s = .ok c ↔ ∃ es, Json.parse s = .ok (.object es) ∧ c.Holds es := by
  rw [ofText_eq_ok]
  exact exists_congr fun es => and_congr_right fun h => bindMembers_eq_ok (increasing_of_parse h)

theorem ofText_of_read {s : String}
    (h : (JsonText.ofString s).read (ofDocument textRoom) = .ok c) : ofText s = .ok c := by
  obtain ⟨ms, hroot, h⟩ := read_eq_ok.mp h
  obtain ⟨es, hes, hc⟩ := ofMembers_of_bindDocument h holds_empty
  exact ofText_eq_ok_iff_holds.mpr ⟨es, parse_eq_object.mpr ⟨ms, hroot, hes⟩, hc⟩

theorem read_of_ofText {s : String} (h : ofText s = .ok c)
    (hkeys : ∀ ms, (JsonText.ofString s).root = .object ms → ms.keys.Nodup) :
    (JsonText.ofString s).read (ofDocument textRoom) = .ok c := by
  obtain ⟨es, hes, hc⟩ := ofText_eq_ok_iff_holds.mp h
  obtain ⟨ms, hroot, hes⟩ := parse_eq_object.mp hes
  have hnodup := hkeys ms (by rw [hroot])
  exact read_eq_ok.mpr ⟨ms, hroot, bindDocument_of_ofMembers hes hnodup holds_empty hc⟩

theorem ofText_eq_error {s : String} (h : Json.parse s = .ok (.object es))
    (hbad : ∃ e ∈ es, ¬ e.2.isScalar) :
    ∃ k v, (k, v) ∈ es ∧ ¬ v.isScalar ∧ (∀ e ∈ es, ¬ e.2.isScalar → k ≤ e.1) ∧
      ofText s = .error (.data (.badField k v.render)) := by
  obtain ⟨k, v, hmem, hv, hleast, herror⟩ :=
    bindMembers_eq_error (c := .empty) hbad (increasing_of_parse h)
  refine ⟨k, v, hmem, hv, hleast, ?_⟩
  rw [ofText, h]
  exact herror

/-- What is read as it is met is read through the sorted members too, and the other way round
unless the object gives a key twice. Either way it is an object that stands there, and the values
that are left in it are just those of the context. If one of them cannot be the value of a field,
the first such key is reported. -/
theorem data_readers_agree (s : String) :
    (∀ c, (JsonText.ofString s).read (ofDocument textRoom) = .ok c →
      ofText s = .ok c ∧ c.equal c) ∧
    (∀ c, ofText s = .ok c →
      (∀ ms, (JsonText.ofString s).root = .object ms → ms.keys.Nodup) →
      (JsonText.ofString s).read (ofDocument textRoom) = .ok c ∧ c.equal c) ∧
    (∀ c, (JsonText.ofString s).read (ofDocument textRoom) = .ok c ∨ ofText s = .ok c →
      ∃ es, Json.parse s = .ok (.object es) ∧ (∀ e ∈ es, e.2.isScalar) ∧ c.Holds es) ∧
    ∀ es, Json.parse s = .ok (.object es) → (∃ e ∈ es, ¬ e.2.isScalar) →
      ∃ k v, (k, v) ∈ es ∧ ¬ v.isScalar ∧ (∀ e ∈ es, ¬ e.2.isScalar → k ≤ e.1) ∧
        ofText s = .error (.data (.badField k v.render)) := by
  refine ⟨fun c h => ⟨ofText_of_read h, (finite_read h).equal_self⟩,
    fun c h hkeys => ⟨read_of_ofText h hkeys, (finite_ofText h).equal_self⟩, fun c h => ?_,
    fun es => ofText_eq_error⟩
  have htext : ofText s = .ok c := h.elim ofText_of_read id
  obtain ⟨es, hes, hc⟩ := ofText_eq_ok_iff_holds.mp htext
  exact ⟨es, hes, hc.isScalar (increasing_of_parse hes), hc⟩

end Context
end Rulebook
