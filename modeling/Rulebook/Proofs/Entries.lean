import Mathlib.Data.List.Sort
import Rulebook.Entries

/-! Increasing lists of keys are what is found in them under each key. -/

namespace Rulebook.Entries
variable {α β : Type} {es es' : Entries α}

theorem mem_of_get? {k : String} {v : α} (h : es.get? k = some v) : (k, v) ∈ es := by
  induction es with
  | nil => cases h
  | cons e r ih =>
    obtain ⟨k', v'⟩ := e
    rw [get?] at h
    split at h
    · next hk =>
      cases hk
      cases h
      exact List.mem_cons_self
    · exact List.mem_cons_of_mem _ (ih h)

theorem get?_of_not_mem {k : String} (h : k ∉ es.map Prod.fst) : es.get? k = none := by
  cases hfound : es.get? k with
  | none => rfl
  | some v => exact absurd (List.mem_map.mpr ⟨_, mem_of_get? hfound, rfl⟩) h

theorem get?_map (f : α → β) (es : Entries α) (k : String) :
    get? k (es.map fun e => (e.1, f e.2)) = (es.get? k).map f := by
  induction es with
  | nil => rfl
  | cons e r ih =>
    obtain ⟨k', v⟩ := e
    rw [List.map_cons, get?, get?]
    split
    · rfl
    · exact ih

namespace Increasing

theorem map (hes : Increasing es) (f : α → β) : Increasing (es.map fun e => (e.1, f e.2)) :=
  List.pairwise_map.mpr hes

theorem get?_eq_some (hes : Increasing es) {k : String} {v : α} :
    es.get? k = some v ↔ (k, v) ∈ es := by
  refine ⟨mem_of_get?, fun h => ?_⟩
  induction es with
  | nil => cases h
  | cons e r ih =>
    obtain ⟨hr, ht⟩ := List.pairwise_cons.mp hes
    rcases List.mem_cons.mp h with rfl | h
    · rw [get?, if_pos rfl]
    · have hne : k ≠ e.1 := (String.ne_of_lt (hr _ h)).symm
      rw [get?, if_neg hne]
      exact ih ht h

theorem nodup (hes : Increasing es) : es.Nodup := by
  refine List.Pairwise.imp (fun h => ?_) hes
  rintro rfl
  exact String.lt_irrefl _ h

theorem ext (hes : Increasing es) (hes' : Increasing es') (h : ∀ k, es.get? k = es'.get? k) :
    es = es' := by
  have hmem (e : String × α) : e ∈ es ↔ e ∈ es' := by
    rw [← hes.get?_eq_some, ← hes'.get?_eq_some, h]
  have hanti (a b : String × α) (_ : a ∈ es) (_ : b ∈ es') (hab : a.1 < b.1) (hba : b.1 < a.1) :
      a = b := absurd hba (String.lt_asymm hab)
  exact List.Perm.eq_of_pairwise hanti hes hes'
    ((List.perm_ext_iff_of_nodup hes.nodup hes'.nodup).mpr hmem)

theorem nodup_keys (hes : Increasing es) : (es.map Prod.fst).Nodup :=
  List.pairwise_map.mpr (List.Pairwise.imp (fun h => String.ne_of_lt h) hes)

end Increasing

/- Inserting members with different keys, in any order. -/

theorem get?_insertAll_of_not_mem {kvs : List (String × α)} {k : String}
    (hk : k ∉ kvs.map Prod.fst) (es : Entries α) :
    get? k (kvs.foldl (fun es kv => insert kv.1 kv.2 es) es) = get? k es := by
  induction kvs generalizing es with
  | nil => rfl
  | cons kv r ih =>
    rw [List.map_cons, List.mem_cons, not_or] at hk
    rw [List.foldl_cons, ih hk.2, get?_insert, if_neg hk.1]

theorem get?_insertAll_of_mem {kvs : List (String × α)} (hkeys : (kvs.map Prod.fst).Nodup)
    {k : String} {v : α} (h : (k, v) ∈ kvs) (es : Entries α) :
    get? k (kvs.foldl (fun es kv => insert kv.1 kv.2 es) es) = some v := by
  induction kvs generalizing es with
  | nil => cases h
  | cons kv r ih =>
    obtain ⟨hfirst, hkeys⟩ := List.nodup_cons.mp hkeys
    rw [List.foldl_cons]
    rcases List.mem_cons.mp h with rfl | h
    · rw [get?_insertAll_of_not_mem hfirst, get?_insert, if_pos rfl]
    · exact ih hkeys h _

theorem ofList_perm {kvs : List (String × α)} (hes : Increasing es) (h : kvs.Perm es) :
    ofList kvs = es := by
  have hkeys : (kvs.map Prod.fst).Nodup := ((h.map Prod.fst).nodup_iff).mpr hes.nodup_keys
  refine (increasing_ofList kvs).ext hes fun k => ?_
  cases hk : get? k es with
  | some v => exact get?_insertAll_of_mem hkeys (h.mem_iff.mpr (mem_of_get? hk)) []
  | none =>
    refine get?_insertAll_of_not_mem (fun hmem => ?_) []
    obtain ⟨⟨k, v⟩, he, rfl⟩ := List.mem_map.mp hmem
    rw [hes.get?_eq_some.mpr (h.mem_iff.mp he)] at hk
    cases hk

end Rulebook.Entries
