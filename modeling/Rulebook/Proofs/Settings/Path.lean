import Rulebook.Proofs.Setting
import Rulebook.Settings.Path

/-! Keys as paths, and what a change at one path does to what another one leads to. -/

namespace Rulebook.Settings

/- Keys. -/

theorem word?_eq_some {cs r : List Char} {k : String} (h : word? cs = some (k, r)) :
    k.toList ++ r = cs := by
  rw [word?] at h
  split at h
  · cases h
  · cases h
    rw [String.toList_ofList]
    exact List.prefix_iff_eq_append.mp (List.takeWhile_prefix isWordChar)

theorem ofKey_of_plain {k : String} (hpoint : '.' ∉ k.toList) (hbracket : '[' ∉ k.toList) :
    Path.ofKey k = [.member k] := by
  rw [Path.ofKey]
  cases hread : Path.read? k with
  | none => rfl
  | some path =>
    obtain ⟨⟨w, r⟩, hword, hrest⟩ := Option.bind_eq_some_iff.mp hread
    obtain ⟨path', hsteps, hpath⟩ := Option.bind_eq_some_iff.mp hrest
    have hk : w.toList ++ r = k.toList := word?_eq_some hword
    have hmem {c : Char} (hc : c ∈ r) : c ∈ k.toList := hk ▸ List.mem_append_right _ hc
    cases r with
    | nil =>
      cases hsteps
      cases hpath
      rw [List.append_nil] at hk
      rw [Option.getD_some, String.toList_injective hk]
    | cons c r =>
      have hpoint' : c ≠ '.' := fun h => hpoint (hmem (h ▸ List.mem_cons_self))
      have hbracket' : c ≠ '[' := fun h => hbracket (hmem (h ▸ List.mem_cons_self))
      rw [steps?.eq_def] at hsteps
      grind

/-- What is set at the path stands at the place of a setting as a whole, or apart from it: neither
around it nor inside of it. -/
def Suits : Path → List String → Prop
  | [], [] => True
  | .member a :: path, b :: place => a = b → Suits path place
  | _, _ => False

end Rulebook.Settings
