import Rulebook.Proofs.RuleText.Reading

/-! How deep the tree of a text is. There are never more levels than atoms, and just as many where
one connective joins them all: what stands behind a cut is then a single atom. -/

namespace Rulebook.RuleText

def connectives (cs : List Char) : List Operator :=
  match _cut : cut? cs with
  | some (op, a, b) => connectives a ++ op :: connectives b
  | none => []
termination_by cs.length
decreasing_by
  all_goals
    have := cutLast?_length (cut?_eq_some _cut).1
    have := joint_length_pos op
    omega

def atomCount (rule : String) : Nat := (atoms (normalChars rule.toList)).length

section
variable {cs a b : List Char} {op : Operator} {t : Tree}

theorem connectives_of_cut (h : cut? cs = some (op, a, b)) :
    connectives cs = connectives a ++ op :: connectives b := by
  rw [connectives]
  split
  · next h' => rw [h] at h'; cases h'; rfl
  · next h' => rw [h] at h'; cases h'

theorem connectives_of_whole (h : cut? cs = none) : connectives cs = [] := by
  rw [connectives]
  split
  · next h' => rw [h] at h'; cases h'
  · rfl

theorem length_connectives (cs : List Char) :
    (connectives cs).length + 1 = (atoms cs).length := by
  induction cs using cut?_induction with
  | whole cs h =>
    rw [connectives_of_whole h, atoms_of_whole h, List.length_nil, List.length_singleton]
  | cut cs op a b h iha ihb =>
    rw [connectives_of_cut h, atoms_of_cut h, List.length_append, List.length_append,
      List.length_cons]
    omega

theorem depth_of_whole (h : cut? cs = none) (ht : tree cs = .ok t) : t.depth = 1 := by
  rw [tree_of_whole h, readAtom_eq_ok] at ht
  obtain ⟨r, -, hr, -⟩ := comparison?_eq_some ht
  obtain ⟨op, word, right, rfl, -⟩ := comparisonHere?_eq_some hr
  rfl

theorem depth_le_atoms (ht : tree cs = .ok t) : t.depth ≤ (atoms cs).length := by
  induction cs using cut?_induction generalizing t with
  | whole cs h => rw [depth_of_whole h ht, atoms_of_whole h, List.length_singleton]
  | cut cs op a b h iha ihb =>
    obtain ⟨l, r, hl, hr, rfl⟩ := join_eq_ok ((tree_of_cut h).symm.trans ht)
    have hleft := iha hl
    have hright := ihb hr
    have ha := length_connectives a
    have hb := length_connectives b
    rw [atoms_of_cut h, List.length_append, Tree.depth]
    omega

theorem cut?_right (h : cut? cs = some (op, a, b)) (hop : ∀ o ∈ connectives cs, o = op) :
    cut? b = none := by
  rw [Option.eq_none_iff_forall_ne_some]
  rintro ⟨o, c, d⟩ hb
  have ho : o = op := hop o (by simp [connectives_of_cut h, connectives_of_cut hb])
  have hlast := cutLast?_right (joint_ne_nil op) (cut?_eq_some h).1
  rw [← ho, (cut?_eq_some hb).1] at hlast
  cases hlast

theorem depth_eq_atoms (hop : ∀ o ∈ connectives cs, o = op) (ht : tree cs = .ok t) :
    t.depth = (atoms cs).length := by
  induction cs using cut?_induction generalizing t with
  | whole cs h => rw [depth_of_whole h ht, atoms_of_whole h, List.length_singleton]
  | cut cs o a b h iha _ =>
    obtain rfl : o = op := hop o (by simp [connectives_of_cut h])
    obtain ⟨l, r, hl, hr, rfl⟩ := join_eq_ok ((tree_of_cut h).symm.trans ht)
    have hwhole := cut?_right h hop
    have hleft := iha (fun o ho => hop o (by simp [connectives_of_cut h, ho])) hl
    have hright := depth_of_whole hwhole hr
    have ha := length_connectives a
    rw [atoms_of_cut h, atoms_of_whole hwhole, List.length_append, List.length_singleton,
      Tree.depth]
    omega

-- With both connectives there may be fewer levels than atoms.
example : (parse "a=1 OR b=2 AND c=3 OR d=4").toOption.map Tree.depth = some 3 ∧
    atomCount "a=1 OR b=2 AND c=3 OR d=4" = 4 := by decide +kernel

end

/- Texts that repeat an atom. Each copy makes their trees one level deeper. -/

def repeated (p : List Char) : Nat → List Char
  | 0 => p
  | n + 1 => repeated p n ++ joint .and ++ p

theorem repeated_length (p : List Char) (n : Nat) :
    (repeated p n).length = p.length + n * (p.length + 5) := by
  induction n with
  | zero => simp [repeated]
  | succ n ih =>
    have hj : (joint .and).length = 5 := by decide
    rw [repeated, List.length_append, List.length_append, ih, hj, Nat.succ_mul]
    omega

theorem repeated_isNormal (p : List Char) (n : Nat) (hp : IsNormal p) (hne : p ≠ []) :
    IsNormal (repeated p n) ∧ repeated p n ≠ [] := by
  induction n with
  | zero => exact ⟨hp, hne⟩
  | succ n ih => exact ⟨ih.1.joint .and hp ih.2 hne, by simp [repeated, hne]⟩

theorem tree_repeated (p : List Char) (n : Nat) (u : Tree)
    (hlast : ¬ joint .and <:+: (joint .and).tail ++ p) (hu : tree p = .ok u) :
    ∃ t, tree (repeated p n) = .ok t ∧ t.depth = n + u.depth := by
  induction n with
  | zero => exact ⟨u, hu, by omega⟩
  | succ n ih =>
    obtain ⟨t, ht, hd⟩ := ih
    have hcut : cutLast? (joint .and) (repeated p (n + 1)) = some (repeated p n, p) :=
      (cutLast?_eq_some_iff (joint_ne_nil .and)).mpr ⟨rfl, hlast⟩
    refine ⟨.node .and t u, ?_, ?_⟩
    · rw [tree_of_and hcut, ht, hu]
      rfl
    · rw [Tree.depth, hd]
      omega

theorem parse_repeated (p : List Char) (n : Nat) (u : Tree) (hp : IsNormal p) (hne : p ≠ [])
    (hlast : ¬ joint .and <:+: (joint .and).tail ++ p) (hu : tree p = .ok u) :
    ∃ t, parse (String.ofList (repeated p n)) = .ok t ∧ t.depth = n + u.depth := by
  rw [(repeated_isNormal p n hp hne).1.parse_eq]
  exact tree_repeated p n u hlast hu

end Rulebook.RuleText
