import Rulebook.Proofs.RuleText.Comparison
import Rulebook.Proofs.RuleText.Normal

/-! The tree of a text as two levels of lists: clauses under AND, and in each of them atoms under
OR. What a connective joins is found by cutting at its last occurrence, again and again. -/

namespace Rulebook.RuleText

theorem joint_ne_nil (op : Operator) : joint op ≠ [] := by simp [joint]

/-- The parts of a text between its cuts at a connective, in the order of the text. -/
def parts (op : Operator) (cs : List Char) : List (List Char) :=
  match _cut : cutLast? (joint op) cs with
  | some (a, b) => parts op a ++ [b]
  | none => [cs]
termination_by cs.length
decreasing_by
  have := cutLast?_length _cut
  have := joint_length_pos op
  omega

def join (op : Operator) (l r : Except Fault Tree) : Except Fault Tree := do
  let l ← l
  let r ← r
  return .node op l r

def joinAll (op : Operator) : List (Except Fault Tree) → Except Fault Tree
  | [] => .error .nothingToCombine
  | r :: rs => rs.foldl (join op) r

def readAtom (cs : List Char) : Except Fault Tree :=
  match comparison? cs with
  | some t => .ok t
  | none => .error (.unreadable (String.ofList cs))

theorem readAtom_eq_ok {p : List Char} {t : Tree} :
    readAtom p = .ok t ↔ comparison? p = some t := by
  rw [readAtom]
  cases comparison? p <;> simp

def readClause (cs : List Char) : Except Fault Tree :=
  joinAll .or ((parts .or cs).map readAtom)

theorem parts_of_cut {op : Operator} {cs a b : List Char}
    (h : cutLast? (joint op) cs = some (a, b)) : parts op cs = parts op a ++ [b] := by
  rw [parts]
  split
  · next h' => rw [h] at h'; cases h'; rfl
  · next h' => rw [h] at h'; cases h'

theorem parts_of_none {op : Operator} {cs : List Char} (h : cutLast? (joint op) cs = none) :
    parts op cs = [cs] := by
  rw [parts]
  split
  · next h' => rw [h] at h'; cases h'
  · rfl

theorem parts_ne_nil (op : Operator) (cs : List Char) : parts op cs ≠ [] := by
  cases h : cutLast? (joint op) cs with
  | none => simp [parts_of_none h]
  | some p => simp [parts_of_cut h]

theorem joinAll_append (op : Operator) (rs : List (Except Fault Tree)) (r : Except Fault Tree)
    (h : rs ≠ []) : joinAll op (rs ++ [r]) = join op (joinAll op rs) r := by
  cases rs with
  | nil => exact absurd rfl h
  | cons x rs => simp [joinAll, List.foldl_append]

theorem join_eq_ok {op : Operator} {l r : Except Fault Tree} {t : Tree}
    (h : join op l r = .ok t) : ∃ a b, l = .ok a ∧ r = .ok b ∧ t = .node op a b := by
  cases l with
  | error f => cases h
  | ok a =>
    cases r with
    | error f => cases h
    | ok b => cases h; exact ⟨a, b, rfl, rfl, rfl⟩

theorem tree_of_and {cs a b : List Char} (h : cutLast? (joint .and) cs = some (a, b)) :
    tree cs = join .and (tree a) (tree b) := by
  rw [tree]
  split
  · next h' => rw [h] at h'; cases h'; rfl
  · next h' => rw [h] at h'; cases h'

theorem tree_of_or {cs a b : List Char} (hand : cutLast? (joint .and) cs = none)
    (hor : cutLast? (joint .or) cs = some (a, b)) : tree cs = join .or (tree a) (tree b) := by
  rw [tree]
  split
  · next h' => rw [hand] at h'; cases h'
  · split
    · next h' => rw [hor] at h'; cases h'; rfl
    · next h' => rw [hor] at h'; cases h'

theorem tree_of_none {cs : List Char} (hand : cutLast? (joint .and) cs = none)
    (hor : cutLast? (joint .or) cs = none) : tree cs = readAtom cs := by
  rw [tree]
  split
  · next h' => rw [hand] at h'; cases h'
  · split
    · next h' => rw [hor] at h'; cases h'
    · rfl

theorem cut_induction (op : Operator) {motive : List Char → Prop}
    (whole : ∀ cs, cutLast? (joint op) cs = none → motive cs)
    (cut : ∀ cs a b, cutLast? (joint op) cs = some (a, b) → motive a → motive cs)
    (cs : List Char) : motive cs := by
  induction hn : cs.length using Nat.strong_induction_on generalizing cs with
  | _ n ih =>
    cases hc : cutLast? (joint op) cs with
    | none => exact whole cs hc
    | some p =>
      have hlen := cutLast?_length hc
      have hpos := joint_length_pos op
      exact cut cs p.1 p.2 hc (ih p.1.length (by omega) p.1 rfl)

theorem mem_parts_of_cut {op : Operator} {cs a b p : List Char}
    (h : cutLast? (joint op) cs = some (a, b)) : p ∈ parts op cs ↔ p ∈ parts op a ∨ p = b := by
  rw [parts_of_cut h, List.mem_append, List.mem_singleton]

theorem cutLast?_of_mem_parts {op : Operator} {cs p : List Char} (hp : p ∈ parts op cs) :
    cutLast? (joint op) p = none := by
  induction cs using cut_induction op with
  | whole cs h =>
    rw [parts_of_none h, List.mem_singleton] at hp
    rw [hp, h]
  | cut cs a b h ih =>
    rcases (mem_parts_of_cut h).mp hp with hp | rfl
    · exact ih hp
    · exact cutLast?_right (joint_ne_nil op) h

theorem within_of_mem_parts {op : Operator} {cs p : List Char} (hp : p ∈ parts op cs) :
    p <:+: cs := by
  induction cs using cut_induction op with
  | whole cs h =>
    rw [parts_of_none h, List.mem_singleton] at hp
    rw [hp]
  | cut cs a b h ih =>
    obtain ⟨ha, hb⟩ := cutLast?_within h
    rcases (mem_parts_of_cut h).mp hp with hp | rfl
    · exact (ih hp).trans ha
    · exact hb

theorem IsNormal.of_mem_parts {op : Operator} {cs p : List Char} (hn : IsNormal cs)
    (hp : p ∈ parts op cs) : IsNormal p := by
  induction cs using cut_induction op with
  | whole cs h =>
    rw [parts_of_none h, List.mem_singleton] at hp
    exact hp ▸ hn
  | cut cs a b h ih =>
    obtain ⟨ha, hb, -⟩ := hn.cut h
    rcases (mem_parts_of_cut h).mp hp with hp | rfl
    · exact ih ha hp
    · exact hb

theorem tree_eq_readClause (cs : List Char) (h : cutLast? (joint .and) cs = none) :
    tree cs = readClause cs := by
  induction cs using cut_induction .or with
  | whole cs hor => simp [tree_of_none h hor, readClause, parts_of_none hor, joinAll]
  | cut cs a b hor ih =>
    obtain ⟨ha, hb⟩ := cutLast?_within hor
    have hbor := cutLast?_right (joint_ne_nil .or) hor
    have hne : (parts .or a).map readAtom ≠ [] := by simp [parts_ne_nil]
    rw [tree_of_or h hor, ih (cutLast?_none_of_within (joint_ne_nil .and) ha h),
      tree_of_none (cutLast?_none_of_within (joint_ne_nil .and) hb h) hbor]
    rw [readClause, readClause, parts_of_cut hor, List.map_append, List.map_singleton,
      joinAll_append _ _ _ hne]

theorem tree_eq_joinAll (cs : List Char) :
    tree cs = joinAll .and ((parts .and cs).map readClause) := by
  induction cs using cut_induction .and with
  | whole cs h => simp [tree_eq_readClause cs h, parts_of_none h, joinAll]
  | cut cs a b h ih =>
    have hne : (parts .and a).map readClause ≠ [] := by simp [parts_ne_nil]
    rw [tree_of_and h, ih, tree_eq_readClause b (cutLast?_right (joint_ne_nil .and) h)]
    rw [parts_of_cut h, List.map_append, List.map_singleton, joinAll_append _ _ _ hne]

def atoms (cs : List Char) : List (List Char) := (parts .and cs).flatMap (parts .or)

theorem mem_atoms {cs p : List Char} :
    p ∈ atoms cs ↔ ∃ q ∈ parts .and cs, p ∈ parts .or q := List.mem_flatMap

theorem IsNormal.parse_eq {cs : List Char} (hn : IsNormal cs) :
    parse (String.ofList cs) = tree cs := by
  rw [parse, String.toList_ofList, hn.normalChars_eq]

theorem parse_atom {cs p : List Char} (hn : IsNormal cs) (hp : p ∈ atoms cs) :
    parse (String.ofList p) = readAtom p := by
  obtain ⟨q, hq, hp⟩ := mem_atoms.mp hp
  have hnormal := (hn.of_mem_parts hq).of_mem_parts hp
  have hand : cutLast? (joint .and) p = none :=
    cutLast?_none_of_within (joint_ne_nil .and) (within_of_mem_parts hp) (cutLast?_of_mem_parts hq)
  rw [hnormal.parse_eq, tree_of_none hand (cutLast?_of_mem_parts hp)]

theorem joinAll_chain {op : Operator} {link chain : Tree → Prop} (rs : List (Except Fault Tree))
    (t : Tree) (h : joinAll op rs = .ok t) (links : ∀ r ∈ rs, ∀ u, r = .ok u → link u)
    (one : ∀ u, link u → chain u) (more : ∀ l r, chain l → link r → chain (.node op l r)) :
    chain t := by
  induction rs using List.reverseRecOn generalizing t with
  | nil => cases h
  | append_singleton rs r ih =>
    by_cases hne : rs = []
    · subst hne
      exact one t (links r (by simp) t h)
    · rw [joinAll_append op rs r hne] at h
      obtain ⟨a, b, ha, rfl, rfl⟩ := join_eq_ok h
      have hl := ih a ha fun r hr u hu => links r (by simp [hr]) u hu
      exact more a b hl (links (.ok b) (by simp) b rfl)

end Rulebook.RuleText
