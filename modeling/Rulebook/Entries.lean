/-! Lists of keys with values, in increasing order of the keys. -/

namespace Rulebook

abbrev Entries (α : Type) := List (String × α)

namespace Entries
variable {α β : Type}

def get? (k : String) : Entries α → Option α
  | [] => none
  | (k', v) :: r => if k = k' then some v else get? k r

def insert (k : String) (v : α) : Entries α → Entries α
  | [] => [(k, v)]
  | (k', v') :: r =>
    if k < k' then (k, v) :: (k', v') :: r
    else if k = k' then (k, v) :: r
    else (k', v') :: insert k v r

def ofList (kvs : List (String × α)) : Entries α :=
  kvs.foldl (fun es kv => insert kv.1 kv.2 es) []

def Increasing (es : Entries α) : Prop := es.Pairwise fun a b => a.1 < b.1

theorem get?_insert (k x : String) (v : α) (es : Entries α) :
    get? x (insert k v es) = if x = k then some v else get? x es := by
  induction es with
  | nil => simp [insert, get?]
  | cons e r ih =>
    obtain ⟨k', v'⟩ := e
    simp only [insert]
    split
    · simp [get?]
    · split
      · next h => subst h; grind [get?]
      · simp only [get?, ih]
        grind

theorem mem_insert {k : String} {v : α} {es : Entries α} {e : String × α}
    (h : e ∈ insert k v es) : e = (k, v) ∨ e ∈ es := by
  induction es with
  | nil => simpa [insert] using h
  | cons f r ih =>
    simp only [insert] at h
    grind

theorem Increasing.insert {es : Entries α} (h : Increasing es) (k : String) (v : α) :
    Increasing (insert k v es) := by
  induction es with
  | nil => simp [Increasing, Entries.insert]
  | cons f r ih =>
    obtain ⟨k', v'⟩ := f
    obtain ⟨hr, ht⟩ := List.pairwise_cons.mp h
    simp only [Entries.insert]
    split
    · next hlt =>
      refine List.pairwise_cons.mpr ⟨fun e he => ?_, h⟩
      rcases List.mem_cons.mp he with rfl | he
      · exact hlt
      · exact String.lt_trans hlt (hr e he)
    · next hnot =>
      split
      · next heq =>
        subst heq
        exact List.pairwise_cons.mpr ⟨hr, ht⟩
      · next hne =>
        refine List.pairwise_cons.mpr ⟨fun e he => ?_, ih ht⟩
        rcases mem_insert he with rfl | he
        · have : k' < k := by grind
          exact this
        · exact hr e he

theorem increasing_foldl {es : Entries α} (h : Increasing es) (kvs : List (String × α)) :
    Increasing (kvs.foldl (fun es kv => Entries.insert kv.1 kv.2 es) es) := by
  induction kvs generalizing es with
  | nil => exact h
  | cons kv r ih => exact ih (h.insert kv.1 kv.2)

theorem increasing_ofList (kvs : List (String × α)) : Increasing (ofList kvs) :=
  increasing_foldl List.Pairwise.nil kvs

end Entries
end Rulebook
