import Rulebook.Proofs.Outcome
import Rulebook.Proofs.RuleText.Parts

/-! What is read of a text: the chain of its comparisons, or the first of its atoms that is none.
The reader cuts both sides of a text again and again; the lists of clauses and atoms are flat. -/

namespace Rulebook.RuleText
variable {cs a b : List Char} {op : Operator}

/-- The connective that a text is cut at, and its sides: the last AND, or else the last OR. -/
def cut? (cs : List Char) : Option (Operator × List Char × List Char) :=
  match cutLast? (joint .and) cs with
  | some p => some (.and, p)
  | none => (cutLast? (joint .or) cs).map fun p => (.or, p)

theorem cut?_eq_some (h : cut? cs = some (op, a, b)) :
    cutLast? (joint op) cs = some (a, b) ∧
      (op = .and ∨ op = .or ∧ cutLast? (joint .and) cs = none) := by
  unfold cut? at h
  split at h
  · next p hp =>
    cases h
    exact ⟨hp, .inl rfl⟩
  · next hand =>
    obtain ⟨p, hp, heq⟩ := Option.map_eq_some_iff.mp h
    cases heq
    exact ⟨hp, .inr ⟨rfl, hand⟩⟩

theorem cut?_eq_none (h : cut? cs = none) :
    cutLast? (joint .and) cs = none ∧ cutLast? (joint .or) cs = none := by
  unfold cut? at h
  split at h
  · cases h
  · next hand => exact ⟨hand, Option.map_eq_none_iff.mp h⟩

theorem tree_of_cut (h : cut? cs = some (op, a, b)) : tree cs = join op (tree a) (tree b) := by
  obtain ⟨hcut, rfl | ⟨rfl, hand⟩⟩ := cut?_eq_some h
  · exact tree_of_and hcut
  · exact tree_of_or hand hcut

theorem tree_of_whole (h : cut? cs = none) : tree cs = readAtom cs :=
  tree_of_none (cut?_eq_none h).1 (cut?_eq_none h).2

theorem cut?_induction {motive : List Char → Prop} (whole : ∀ cs, cut? cs = none → motive cs)
    (cut : ∀ cs op a b, cut? cs = some (op, a, b) → motive a → motive b → motive cs)
    (cs : List Char) : motive cs := by
  induction hn : cs.length using Nat.strong_induction_on generalizing cs with
  | _ n ih =>
    cases hc : cut? cs with
    | none => exact whole cs hc
    | some p =>
      obtain ⟨op, a, b⟩ := p
      have hlen := cutLast?_length (cut?_eq_some hc).1
      have hpos := joint_length_pos op
      exact cut cs op a b hc (ih a.length (by omega) a rfl) (ih b.length (by omega) b rfl)

theorem atoms_of_not_and (h : cutLast? (joint .and) cs = none) : atoms cs = parts .or cs := by
  rw [atoms, parts_of_none h, List.flatMap_singleton]

theorem atoms_of_cut (h : cut? cs = some (op, a, b)) : atoms cs = atoms a ++ atoms b := by
  obtain ⟨hcut, rfl | ⟨rfl, hand⟩⟩ := cut?_eq_some h
  · have hb := cutLast?_right (joint_ne_nil .and) hcut
    rw [atoms_of_not_and hb, atoms, parts_of_cut hcut, List.flatMap_append, List.flatMap_singleton]
    rfl
  · obtain ⟨ha, hb⟩ := cutLast?_within hcut
    have hbor := cutLast?_right (joint_ne_nil .or) hcut
    rw [atoms_of_not_and hand, parts_of_cut hcut,
      atoms_of_not_and (cutLast?_none_of_within (joint_ne_nil .and) ha hand),
      atoms_of_not_and (cutLast?_none_of_within (joint_ne_nil .and) hb hand), parts_of_none hbor]

theorem atoms_of_whole (h : cut? cs = none) : atoms cs = [cs] := by
  obtain ⟨hand, hor⟩ := cut?_eq_none h
  rw [atoms_of_not_and hand, parts_of_none hor]

def unread? (cs : List Char) : Option (List Char) :=
  (atoms cs).find? fun p => (comparison? p).isNone

theorem unread?_of_cut (h : cut? cs = some (op, a, b)) :
    unread? cs = (unread? a).or (unread? b) := by
  rw [unread?, atoms_of_cut h, List.find?_append]
  rfl

/- The left side is read to its end before the right one, so the first atom that fails is the one
that is told. -/
theorem tree_of_unread (cs : List Char) :
    (∀ p, unread? cs = some p → tree cs = .error (.unreadable (String.ofList p))) ∧
      (unread? cs = none → ∃ t, tree cs = .ok t) := by
  induction cs using cut?_induction with
  | whole cs h =>
    rw [tree_of_whole h, readAtom, unread?, atoms_of_whole h]
    cases hc : comparison? cs with
    | none =>
      rw [List.find?_cons_of_pos (by simp [hc])]
      exact ⟨fun p hp => by rw [Option.some.inj hp], fun hn => by cases hn⟩
    | some t =>
      rw [List.find?_cons_of_neg (by simp [hc])]
      refine ⟨fun p hp => ?_, fun _ => ⟨t, rfl⟩⟩
      cases hp
  | cut cs op a b h iha ihb =>
    rw [tree_of_cut h, unread?_of_cut h]
    cases ha : unread? a with
    | some p =>
      rw [iha.1 p ha]
      exact ⟨fun q hq => by rw [← Option.some.inj hq]; rfl, fun hn => by cases hn⟩
    | none =>
      obtain ⟨l, hl⟩ := iha.2 ha
      rw [hl, Option.none_or]
      refine ⟨fun p hp => by rw [ihb.1 p hp]; rfl, fun hn => ?_⟩
      obtain ⟨r, hr⟩ := ihb.2 hn
      exact ⟨.node op l r, by rw [hr]; rfl⟩

theorem tree_eq_error_iff {f : Fault} :
    tree cs = .error f ↔ ∃ p, unread? cs = some p ∧ f = .unreadable (String.ofList p) := by
  obtain ⟨herror, hok⟩ := tree_of_unread cs
  constructor
  · intro h
    cases hu : unread? cs with
    | none =>
      obtain ⟨t, ht⟩ := hok hu
      rw [h] at ht
      cases ht
    | some p =>
      rw [herror p hu] at h
      exact ⟨p, rfl, (Except.error.inj h).symm⟩
  · rintro ⟨p, hp, rfl⟩
    exact herror p hp

theorem unread?_eq_none_iff : unread? cs = none ↔ ∃ t, tree cs = .ok t := by
  refine ⟨(tree_of_unread cs).2, ?_⟩
  rintro ⟨t, ht⟩
  rw [Option.eq_none_iff_forall_ne_some]
  intro p hp
  rw [(tree_of_unread cs).1 p hp] at ht
  cases ht

def chain? (op : Operator) : List Tree → Option Tree
  | [] => none
  | t :: ts => some (ts.foldl (.node op) t)

def clauseChain? (cs : List Char) : Option Tree :=
  ((parts .or cs).mapM comparison?).bind (chain? .or)

def textChain? (cs : List Char) : Option Tree :=
  ((parts .and cs).mapM clauseChain?).bind (chain? .and)

theorem toOption_join (op : Operator) (l r : Except Fault Tree) :
    (join op l r).toOption = l.toOption.bind fun t => r.toOption.map (.node op t) := by
  cases l with
  | error f => rfl
  | ok t => cases r <;> rfl

theorem toOption_foldl_join (op : Operator) (rs : List (Except Fault Tree))
    (r : Except Fault Tree) : (rs.foldl (join op) r).toOption =
      r.toOption.bind fun t => (rs.mapM Except.toOption).map fun ts => ts.foldl (.node op) t := by
  induction rs generalizing r with
  | nil => cases r <;> rfl
  | cons s rs ih =>
    rw [List.foldl_cons, ih, toOption_join, List.mapM_cons]
    cases r.toOption <;> cases s.toOption <;> cases rs.mapM Except.toOption <;> rfl

theorem toOption_joinAll (op : Operator) (rs : List (Except Fault Tree)) :
    (joinAll op rs).toOption = (rs.mapM Except.toOption).bind (chain? op) := by
  cases rs with
  | nil => rfl
  | cons r rs =>
    rw [joinAll, toOption_foldl_join, List.mapM_cons]
    cases r.toOption <;> cases rs.mapM Except.toOption <;> rfl

theorem toOption_readAtom (p : List Char) : (readAtom p).toOption = comparison? p := by
  ext t
  rw [toOption_eq_some, readAtom_eq_ok]

theorem toOption_readClause (cs : List Char) : (readClause cs).toOption = clauseChain? cs := by
  rw [readClause, toOption_joinAll, List.mapM_map, clauseChain?]
  congr 2
  funext p
  exact toOption_readAtom p

theorem toOption_tree (cs : List Char) : (tree cs).toOption = textChain? cs := by
  rw [tree_eq_joinAll, toOption_joinAll, List.mapM_map, textChain?]
  congr 2
  funext p
  exact toOption_readClause p

theorem read_of_sign? {r : List Char} (h : sign? cs = some (op, r)) :
    ∃ sign, cs = sign ++ r ∧ Operator.read (String.ofList sign) = .ok op := by
  refine ⟨op.symbol.toList, (sign?_eq_some h).2, ?_⟩
  rw [String.ofList_toList, Operator.read, Operator.ofSymbol?_symbol]

/-- A text is a rule just if each of its atoms is a comparison. Its tree is the chain of these, by
OR within a clause and by AND between clauses. A text that is no rule fails with its first atom
that is no comparison, and in no other way: a sign that is found is never an unknown operator. -/
theorem parse_reads_atoms (rule : String) :
    ((∃ t, parse rule = .ok t) ↔
      ∀ p ∈ atoms (normalChars rule.toList), (comparison? p).isSome) ∧
    (∀ t, parse rule = .ok t ↔ textChain? (normalChars rule.toList) = some t) ∧
    (∀ f, parse rule = .error f ↔
      ∃ p, unread? (normalChars rule.toList) = some p ∧ f = .unreadable (String.ofList p)) ∧
    ∀ cs op r, sign? cs = some (op, r) →
      ∃ sign, cs = sign ++ r ∧ Operator.read (String.ofList sign) = .ok op := by
  refine ⟨?_, fun t => ?_, fun f => tree_eq_error_iff, fun cs op r => read_of_sign?⟩
  · have hread : unread? (normalChars rule.toList) = none ↔ ∃ t, parse rule = .ok t :=
      unread?_eq_none_iff
    rw [← hread, unread?, List.find?_eq_none]
    simp [Option.isSome_iff_ne_none]
  · rw [parse, ← toOption_tree, toOption_eq_some]

-- Connectives share no space: of these three the outer ones join, and the middle one is an atom.
example : parse "a=1 AND AND AND b=2 OR c" = .error (.unreadable "AND") := by decide +kernel

end Rulebook.RuleText
