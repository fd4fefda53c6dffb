import Rulebook.Proofs.Settings.Path
import Rulebook.Proofs.Settings.Reading

/-! What a layer does to the value of each key, and what a run of layers does. -/

namespace Rulebook.Settings

namespace Key

theorem path_cases (k : Key) :
    (∃ name, k.path = [name]) ∨ ∃ part ∈ parts, ∃ name, k.path = [part, name] := by
  cases k <;> simp [path, parts]

theorem convert_overlay (k : Key) (old v : Setting) :
    k.convert (old.overlay v) = k.convert v := by
  cases k <;> cases v <;> rfl

end Key

def Open (root : Setting) : Prop := ∀ k : Key, root.Leads k.path

theorem Open.exists_table {root : Setting} (h : Open root) : ∃ es, root = .table es := by
  obtain ⟨es, hes, -⟩ := h .serviceName
  exact ⟨es, hes⟩

theorem open_table_iff {es : Entries Setting} : Open (.table es) ↔ Sectioned es := by
  constructor
  · intro h part hpart v hv
    have hway (k : Key) (name : String) (hk : k.path = [part, name]) :
        ∃ members, v = .table members := by
      obtain ⟨_, hes, hbelow⟩ := hk ▸ h k
      cases hes
      obtain ⟨members, hmembers, -⟩ := hbelow v hv
      exact ⟨members, hmembers⟩
    rcases List.mem_cons.mp hpart with rfl | hpart
    · exact hway .maxRuleLength _ rfl
    · cases List.mem_singleton.mp hpart
      exact hway .logLevel _ rfl
  · intro h k
    rcases k.path_cases with ⟨name, hk⟩ | ⟨part, hpart, name, hk⟩
    · rw [hk]
      exact ⟨es, rfl, fun _ _ => trivial⟩
    · rw [hk]
      refine ⟨es, rfl, fun v hv => ?_⟩
      obtain ⟨members, rfl⟩ := h part hpart v hv
      exact ⟨members, rfl, fun _ _ => trivial⟩

namespace Layer

theorem apply_cons (e : String × Setting) (layer : Layer) (root : Setting) :
    apply (e :: layer) root = apply layer (setAt e.2 (Path.ofKey e.1) root) := rfl

/-- Over any table a layer gives these values to the keys, and leaves the others. Values count as
what they are converted to. -/
structure Gives (layer : Layer) (given : Key → Option Setting) : Prop where
  isOpen {root : Setting} : Open root → Open (layer.apply root)
  value {root : Setting} : Open root → ∀ k : Key,
    ((layer.apply root).at? k.path).map k.convert =
      ((given k).map k.convert).or ((root.at? k.path).map k.convert)

theorem map_convert_or (k : Key) (found : Option Setting) (old : Setting)
    (rest : Option Setting) :
    ((found.map (Setting.overlay old)).or rest).map k.convert =
      (found.map k.convert).or (rest.map k.convert) := by
  cases found with
  | none => rfl
  | some v => simp [k.convert_overlay]

/- The layer of a file. -/

theorem apply_of_plain {layer : Layer} (h : ∀ e ∈ layer, Path.ofKey e.1 = [.member e.1])
    (old : Entries Setting) :
    apply layer (.table old) = Setting.overlay (.table old) (.table layer) := by
  induction layer generalizing old with
  | nil => rfl
  | cons e layer ih =>
    obtain ⟨he, hlayer⟩ := List.forall_mem_cons.mp h
    have hstep : setAt e.2 (Path.ofKey e.1) (.table old) =
        .table (Entries.insert e.1
          (Setting.overlay ((Entries.get? e.1 old).getD .nothing) e.2) old) := by
      rw [he]
      rfl
    rw [apply_cons, hstep, ih hlayer]
    rfl

theorem gives_of_plain {layer : Layer} (hplain : ∀ e ∈ layer, Path.ofKey e.1 = [.member e.1])
    (hordered : (Setting.table layer).Ordered) (hopen : Open (.table layer)) :
    Gives layer fun k => (Setting.table layer).at? k.path where
  isOpen hroot k := by
    obtain ⟨old, rfl⟩ := hroot.exists_table
    rw [apply_of_plain hplain]
    exact (hopen k).overlay hordered (Or.inr (hroot k))
  value hroot k := by
    obtain ⟨old, rfl⟩ := hroot.exists_table
    rw [apply_of_plain hplain, Setting.at?_overlay (hopen k) hordered, map_convert_or]

/- A layer of keys with points. -/

end Layer
end Rulebook.Settings
