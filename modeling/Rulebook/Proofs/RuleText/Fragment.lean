import Rulebook.Proofs.RuleText.Reading
import Rulebook.Proofs.RuleText.Runs

/-! The fragments of a rule text: what its reader comes to by cutting. Blanks matter only where
they end a run, and a fragment of a normal text is normal, so it may be read as a text of its own. -/

namespace Rulebook.RuleText
open Text
variable {cs a b p : List Char} {op : Operator}

/-- The texts that are read for the tree of a text: itself, and the sides of every cut. -/
inductive Fragment (cs : List Char) : List Char → Prop
  | whole : Fragment cs cs
  | left {p a b : List Char} {op : Operator} (h : Fragment cs p) (hcut : cut? p = some (op, a, b)) :
      Fragment cs a
  | right {p a b : List Char} {op : Operator} (h : Fragment cs p)
      (hcut : cut? p = some (op, a, b)) : Fragment cs b

theorem Fragment.isNormal (hn : IsNormal cs) (h : Fragment cs p) : IsNormal p := by
  induction h with
  | whole => exact hn
  | left _ hcut ih => exact (ih.cut (cut?_eq_some hcut).1).1
  | right _ hcut ih => exact (ih.cut (cut?_eq_some hcut).1).2.1

theorem IsNormal.normalize_eq (hn : IsNormal cs) :
    normalize (String.ofList cs) = String.ofList cs := by
  rw [normalize, String.toList_ofList, hn.normalChars_eq]

theorem parse_congr {s t : String} (h : visibleRuns s.toList = visibleRuns t.toList) :
    parse s = parse t := by
  rw [parse, parse, normalChars_eq_intercalate, normalChars_eq_intercalate, h]

/-- To normalize a text is to write its runs with single spaces between them, and only the runs
matter to what is read. A fragment of the normal text has nothing left to normalize. Where it is
cut, neither side is empty, and its tree joins what the sides are read as by themselves. -/
theorem fragments_read_alone (rule : String) :
    normalize rule = " ".intercalate ((visibleRuns rule.toList).map String.ofList) ∧
    (∀ w, w ∈ visibleRuns rule.toList ↔
      w ≠ [] ∧ ∃ a b, rule.toList = a ++ w ++ b ∧ IsRun (fun c => !isBlank c) a w b) ∧
    normalize (normalize rule) = normalize rule ∧
    (∀ other, visibleRuns other.toList = visibleRuns rule.toList → parse other = parse rule) ∧
    ∀ p, Fragment (normalChars rule.toList) p →
      normalize (String.ofList p) = String.ofList p ∧ parse (String.ofList p) = tree p ∧
      ∀ op a b, cut? p = some (op, a, b) →
        a ≠ [] ∧ b ≠ [] ∧ normalize (String.ofList a) = String.ofList a ∧
        normalize (String.ofList b) = String.ofList b ∧
        tree p = join op (parse (String.ofList a)) (parse (String.ofList b)) := by
  have hn := normalChars_isNormal rule.toList
  refine ⟨normalize_eq_intercalate rule, fun w => mem_runs_iff, hn.normalize_eq,
    fun other => parse_congr, fun p hp => ?_⟩
  have hnp := hp.isNormal hn
  refine ⟨hnp.normalize_eq, hnp.parse_eq, fun op a b hcut => ?_⟩
  obtain ⟨hna, hnb, ha, hb⟩ := hnp.cut (cut?_eq_some hcut).1
  rw [hna.parse_eq, hnb.parse_eq]
  exact ⟨ha, hb, hna.normalize_eq, hnb.normalize_eq, tree_of_cut hcut⟩

theorem fragments_read_alone_spaced :
    parse "\t a=1  AND\nAND OR\u3000 b = 'x  y' " = parse "a=1 AND AND OR b = 'x y'" ∧
    parse "a=1 AND AND OR b = 'x y'" = join .and (parse "a=1 AND") (parse "OR b = 'x y'") := by
  obtain ⟨-, -, -, hother, hfragment⟩ := fragments_read_alone "a=1 AND AND OR b = 'x y'"
  have hcut : cut? (normalChars "a=1 AND AND OR b = 'x y'".toList) =
      some (.and, "a=1 AND".toList, "OR b = 'x y'".toList) := by decide +kernel
  obtain ⟨-, -, hsides⟩ := hfragment _ .whole
  obtain ⟨-, -, -, -, hjoin⟩ := hsides _ _ _ hcut
  rw [String.ofList_toList, String.ofList_toList] at hjoin
  exact ⟨hother _ (by decide +kernel), hjoin⟩

end Rulebook.RuleText
