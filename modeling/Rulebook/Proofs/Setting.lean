import Rulebook.Proofs.Entries
import Rulebook.Setting

/-! What a path of keys leads to in a setting, before and after another one is laid over it. -/

namespace Rulebook.Setting

/-- Every table in the setting lists its keys in increasing order. -/
inductive Ordered : Setting → Prop where
  | nothing : Ordered .nothing
  | boolean (b : Bool) : Ordered (.boolean b)
  | whole (n : Int) : Ordered (.whole n)
  | real (x : Binary64) : Ordered (.real x)
  | text (s : String) : Ordered (.text s)
  | list {items : List Setting} (all : ∀ v ∈ items, Ordered v) : Ordered (.list items)
  | table {es : Entries Setting} (increasing : es.Increasing) (all : ∀ e ∈ es, Ordered e.2) :
      Ordered (.table es)

def at? : List String → Setting → Option Setting
  | [], v => some v
  | k :: path, v => (Entries.get? k v.members).bind (at? path)

/-- There are only tables on the way along a path, as far as there is anything. -/
def Leads : List String → Setting → Prop
  | [], _ => True
  | k :: path, v => ∃ es, v = .table es ∧ ∀ w, Entries.get? k es = some w → Leads path w

theorem at?_getD {path : List String} (h : path ≠ []) (found : Option Setting) :
    at? path (found.getD .nothing) = found.bind (at? path) := by
  cases found with
  | some v => rfl
  | none =>
    cases path with
    | nil => exact absurd rfl h
    | cons k path => rfl

theorem getD_at?_getD (path : List String) (found : Option Setting) :
    (at? path (found.getD .nothing)).getD .nothing = (found.bind (at? path)).getD .nothing := by
  cases path with
  | nil => cases found <;> rfl
  | cons k path => rw [at?_getD (List.cons_ne_nil k path)]

/- One setting over another. -/

theorem get?_overlayMembers {es : Entries Setting} (hes : es.Increasing)
    (old : Entries Setting) (k : String) :
    Entries.get? k (overlayMembers old es) =
      ((Entries.get? k es).map (overlay ((Entries.get? k old).getD .nothing))).or
        (Entries.get? k old) := by
  induction es generalizing old with
  | nil => rw [overlayMembers]; rfl
  | cons e r ih =>
    obtain ⟨k', v⟩ := e
    have hr : Entries.Increasing r := (List.pairwise_cons.mp hes).2
    rw [overlayMembers, ih hr, Entries.get?_insert, Entries.get?]
    by_cases hk : k = k'
    · subst hk
      -- a key stands in the list only once, so nothing is laid over this member again
      have hnone : Entries.get? k r = none :=
        Entries.get?_of_not_mem (List.nodup_cons.mp hes.nodup_keys).1
      rw [hnone, if_pos rfl, if_pos rfl]
      rfl
    · rw [if_neg hk, if_neg hk]

theorem at?_overlay {path : List String} {new : Setting} (hnew : new.Leads path)
    (hordered : new.Ordered) (old : Setting) :
    at? path (overlay old new) =
      ((at? path new).map (overlay ((at? path old).getD .nothing))).or (at? path old) := by
  induction path generalizing old new with
  | nil => rfl
  | cons k path ih =>
    obtain ⟨es, rfl, hbelow⟩ := hnew
    cases hordered with
    | table hes hall =>
      simp only [at?, overlay, members, get?_overlayMembers hes]
      cases hk : Entries.get? k es with
      | none => rfl
      | some w =>
        have hw := ih (hbelow w hk) (hall _ (Entries.mem_of_get? hk))
        simp only [Option.map_some, Option.some_or, Option.bind_some, hw, getD_at?_getD]
        cases path with
        | nil => rfl
        | cons k' path => rw [at?_getD (List.cons_ne_nil k' path)]

theorem Leads.overlay {path : List String} {old new : Setting} (hnew : new.Leads path)
    (hordered : new.Ordered) (hold : old = .nothing ∨ old.Leads path) :
    (overlay old new).Leads path := by
  induction path generalizing old new with
  | nil => trivial
  | cons k path ih =>
    obtain ⟨es, rfl, hbelow⟩ := hnew
    cases hordered with
    | table hes hall =>
      refine ⟨_, by rw [Setting.overlay], fun w hw => ?_⟩
      rw [get?_overlayMembers hes] at hw
      have hmember {u : Setting} (hu : Entries.get? k old.members = some u) : u.Leads path := by
        rcases hold with rfl | ⟨members, rfl, hold⟩
        · cases hu
        · exact hold u hu
      cases hk : Entries.get? k es with
      | none => exact hmember (by rwa [hk] at hw)
      | some u =>
        rw [hk] at hw
        cases hw
        refine ih (hbelow u hk) (hall _ (Entries.mem_of_get? hk)) ?_
        cases hfound : Entries.get? k old.members with
        | none => exact Or.inl rfl
        | some u' => exact Or.inr (hmember hfound)

end Rulebook.Setting
