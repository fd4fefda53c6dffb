import Rulebook.Proofs.RuleText.Grammar

/-! Ways to write a chain as a text. Each of them reads back as the same tree, although brackets
mean nothing to the reader: they only surround comparisons, and a comparison is found whatever
surrounds it. -/

namespace Rulebook

def Tree.subjects : Tree → List String
  | .operand _ => []
  | .node op l r => if op.isConnective then l.subjects ++ r.subjects else l.operands

namespace RuleText
open Text

/-- How a tree is written: with or without a space on both sides of a sign, and with or without
brackets around what a connective joins. -/
structure Layout where
  spaced : Bool
  bracketed : Bool

namespace Layout
variable (y : Layout)

def compact : Layout := ⟨false, false⟩

def full : Layout := ⟨true, true⟩

def gap : List Char := if y.spaced then [' '] else []

def opening : List Char := if y.bracketed then ['('] else []

def closing : List Char := if y.bracketed then [')'] else []

def write : Tree → List Char
  | .operand s => s.toList
  | .node op l r =>
    if op.isConnective then y.opening ++ (write l ++ joint op ++ write r) ++ y.closing
    else write l ++ (y.gap ++ (op.symbol.toList ++ (y.gap ++ write r)))

/-- A field that is written between spaces must not be the word of a connective. -/
def Suits (t : Tree) : Prop :=
  y.spaced → ∀ op : Operator, op.isConnective → op.symbol ∉ t.subjects

theorem Suits.parts {y : Layout} {op : Operator} {l r : Tree} (hop : op.isConnective)
    (h : y.Suits (.node op l r)) : y.Suits l ∧ y.Suits r := by
  constructor <;> intro hs o ho hm <;> refine h hs o ho ?_ <;> rw [Tree.subjects, if_pos hop]
  · exact List.mem_append_left _ hm
  · exact List.mem_append_right _ hm

theorem write_connective {op : Operator} (hop : op.isConnective) (l r : Tree) :
    y.write (.node op l r) = y.opening ++ (y.write l ++ joint op ++ y.write r) ++ y.closing := by
  rw [write, if_pos hop]

theorem write_connective_around {op : Operator} (hop : op.isConnective) (l r : Tree)
    (a b : List Char) : a ++ y.write (.node op l r) ++ b =
      a ++ y.opening ++ y.write l ++ [] ++ joint op ++ ([] ++ y.write r ++ (y.closing ++ b)) := by
  rw [y.write_connective hop]
  simp

theorem write_comparison {op : Operator} (hop : op.isConnective = false) (field right : String) :
    y.write (.node op (.operand field) (.operand right)) =
      field.toList ++ (y.gap ++ (op.symbol.toList ++ (y.gap ++ right.toList))) := by
  rw [write, if_neg (by simp [hop]), write, write]

theorem gap_blank : ∀ c ∈ y.gap, isBlank c := by
  unfold gap
  split <;> simp [isBlank_space]

end Layout

def IsBrackets (cs : List Char) : Prop := ∀ c ∈ cs, c = '(' ∨ c = ')'

theorem IsBrackets.nil : IsBrackets [] := by simp [IsBrackets]

theorem IsBrackets.append {a b : List Char} (ha : IsBrackets a) (hb : IsBrackets b) :
    IsBrackets (a ++ b) := fun c hc => (List.mem_append.mp hc).elim (ha c) (hb c)

theorem IsBrackets.plain {a : List Char} (h : IsBrackets a) {c : Char} (hc : c ∈ a) :
    ¬ isLetter c ∧ ¬ Numeral.isDigit c ∧ ¬ isBlank c := by
  rcases h c hc with rfl | rfl <;> decide

theorem IsBrackets.no_space {a : List Char} (h : IsBrackets a) : ' ' ∉ a :=
  fun hc => (h.plain hc).2.2 isBlank_space

theorem Layout.isBrackets (y : Layout) : IsBrackets y.opening ∧ IsBrackets y.closing := by
  unfold Layout.opening Layout.closing
  split <;> simp [IsBrackets]

variable (y : Layout) {t : Tree} {op : Operator} {a b : List Char}

theorem no_space_of_isField {field : String} (h : IsField field) : ' ' ∉ field.toList := by
  intro hc
  have := h.2 ' ' hc
  revert this
  decide

theorem symbol_not_mem_words_right (hop : op.isConnective) {right : String}
    (hright : IsNumeral right ∨ ∃ inner, IsQuotation right inner) (hb : IsBrackets b) :
    op.symbol.toList ∉ words (right.toList ++ b) := by
  have hoperand := rightOperand_toList hright
  have hcut : cutLast? (joint op) right.toList = none := by
    rcases hright with h | ⟨inner, h⟩
    · exact h.not_cut op
    · exact h.not_cut hop
  have hend : ∀ c, Numeral.isDigit c ∨ c = '\'' → ¬ isLetter c := by
    rintro c (h | rfl)
    · simp [isLetter_of_isDigit h]
    · decide
  refine symbol_not_mem_words hop hcut hb.no_space (fun c hc => ?_) fun c hc => ?_
  · rw [List.head?_append_of_ne_nil _ hoperand.ne_nil] at hc
    exact hend c (hoperand.ends.1 c hc)
  · by_cases hne : b = []
    · rw [hne, List.append_nil] at hc
      exact hend c (hoperand.ends.2 c hc)
    · rw [List.getLast?_append_of_ne_nil _ hne] at hc
      exact (hb.plain (List.mem_of_mem_getLast? hc)).1

/- The word before a sign ends there, or at the space before it. -/

theorem symbol_not_mem_words_sign (hop : op.isConnective) {cop : Operator}
    (hcop : cop.isConnective = false) (ha : ' ' ∉ a) (hb : op.symbol.toList ∉ words b) :
    op.symbol.toList ∉ words (a ++ cop.symbol.toList ++ b) := by
  obtain ⟨x, hx⟩ := List.exists_mem_of_ne_nil _ (symbol_ne_nil cop)
  have hxop : x ∉ op.symbol.toList :=
    fun hm => not_letter_of_mem_symbol hcop x hx (isLetter_of_mem_symbol hop x hm)
  refine symbol_not_mem_words_glued ?_ ⟨x, List.mem_append_right _ hx, hxop⟩ hb
  rw [List.mem_append, not_or]
  exact ⟨ha, space_not_mem_symbol cop⟩

theorem symbol_not_mem_words_spaced (hop : op.isConnective) {cop : Operator}
    (hcop : cop.isConnective = false) (ha : ' ' ∉ a) (hne : op.symbol.toList ≠ a)
    (hb : op.symbol.toList ∉ words b) : op.symbol.toList ∉ words (a ++ joint cop ++ b) := by
  rw [words_joint, words_of_no_space ha, List.singleton_append, List.mem_cons, List.mem_cons,
    not_or, not_or]
  refine ⟨hne, fun he => ?_, hb⟩
  rw [Operator.symbol_injective (String.toList_injective he), hcop] at hop
  cases hop

/-- No bracket is a letter, so a connective is no word with a bracket before it. -/
theorem symbol_ne_brackets_append (hop : op.isConnective) (ha : IsBrackets a) {field : String}
    (hne : op.symbol ≠ field) : op.symbol.toList ≠ a ++ field.toList := by
  intro he
  cases a with
  | nil => exact hne (String.toList_injective he)
  | cons c a =>
    have hc : c ∈ op.symbol.toList := by simp [he]
    exact (ha.plain (by simp)).1 (isLetter_of_mem_symbol hop c hc)

theorem symbol_not_mem_words_comparison (hop : op.isConnective) (ht : IsComparison t)
    (hs : y.Suits t) (ha : IsBrackets a) (hb : IsBrackets b) :
    op.symbol.toList ∉ words (a ++ y.write t ++ b) := by
  obtain @⟨cop, field, right, hcop, hfield, hright⟩ := ht
  have hrest := symbol_not_mem_words_right hop hright hb
  have hstart : ' ' ∉ a ++ field.toList := by
    rw [List.mem_append, not_or]
    exact ⟨ha.no_space, no_space_of_isField hfield⟩
  rw [y.write_comparison hcop, Layout.gap]
  cases hsp : y.spaced with
  | false =>
    have htext : a ++ (field.toList ++ ([] ++ (cop.symbol.toList ++ ([] ++ right.toList)))) ++ b =
        a ++ field.toList ++ cop.symbol.toList ++ (right.toList ++ b) := by simp
    rw [if_neg Bool.false_ne_true, htext]
    exact symbol_not_mem_words_sign hop hcop hstart hrest
  | true =>
    have htext :
        a ++ (field.toList ++ ([' '] ++ (cop.symbol.toList ++ ([' '] ++ right.toList)))) ++ b =
          a ++ field.toList ++ joint cop ++ (right.toList ++ b) := by simp [joint]
    have hsubject : op.symbol ≠ field := by
      have hnot := hs hsp op hop
      rw [Tree.subjects, if_neg (by simp [hcop]), Tree.operands, List.mem_singleton] at hnot
      exact hnot
    rw [if_pos rfl, htext]
    exact symbol_not_mem_words_spaced hop hcop hstart (symbol_ne_brackets_append hop ha hsubject)
      hrest

theorem and_not_mem_words (ht : IsOrChain t) (hs : y.Suits t) (ha : IsBrackets a)
    (hb : IsBrackets b) : Operator.and.symbol.toList ∉ words (a ++ y.write t ++ b) := by
  induction ht generalizing a b with
  | comparison h => exact symbol_not_mem_words_comparison y rfl h hs ha hb
  | @or l r _ hr ih =>
    obtain ⟨hsl, hsr⟩ := hs.parts rfl
    obtain ⟨hopening, hclosing⟩ := y.isBrackets
    have hleft := ih hsl (ha.append hopening) .nil
    have hright : Operator.and.symbol.toList ∉ words ([] ++ y.write r ++ (y.closing ++ b)) :=
      symbol_not_mem_words_comparison y rfl hr hsr .nil (hclosing.append hb)
    rw [y.write_connective_around rfl, words_joint, List.mem_append, List.mem_cons, not_or, not_or]
    exact ⟨hleft, by decide, hright⟩

theorem comparison?_write (ht : IsComparison t) (ha : IsBrackets a) (hb : IsBrackets b) :
    comparison? (a ++ y.write t ++ b) = some t := by
  obtain @⟨op, field, right, hop, hfield, hright⟩ := ht
  have hrest : ∀ c ∈ b.head?, ¬ Numeral.isDigit c :=
    fun c hc => (hb.plain (List.mem_of_mem_head? hc)).2.1
  have hhere := comparisonHere?_append y.gap b hop hfield.1 hfield.2 (rightOperand_toList hright)
    y.gap_blank hrest
  rw [String.ofList_toList, String.ofList_toList] at hhere
  rw [List.append_assoc, comparison?_append_left _ fun c hc => (ha.plain hc).1,
    y.write_comparison hop]
  simpa using comparison?_of_here hhere

theorem tree_write_comparison (ht : IsComparison t) (hs : y.Suits t) (ha : IsBrackets a)
    (hb : IsBrackets b) : tree (a ++ y.write t ++ b) = .ok t := by
  have hand : cutLast? (joint .and) (a ++ y.write t ++ b) = none :=
    cutLast?_eq_none_of_words .and (symbol_not_mem_words_comparison y rfl ht hs ha hb)
  have hor : cutLast? (joint .or) (a ++ y.write t ++ b) = none :=
    cutLast?_eq_none_of_words .or (symbol_not_mem_words_comparison y rfl ht hs ha hb)
  rw [tree_of_none hand hor, readAtom, comparison?_write y ht ha hb]

theorem tree_write_orChain (ht : IsOrChain t) (hs : y.Suits t) (ha : IsBrackets a)
    (hb : IsBrackets b) : tree (a ++ y.write t ++ b) = .ok t := by
  induction ht generalizing a b with
  | comparison h => exact tree_write_comparison y h hs ha hb
  | @or l r hl hr ih =>
    obtain ⟨hsl, hsr⟩ := hs.parts rfl
    obtain ⟨hopening, hclosing⟩ := y.isBrackets
    have hand : cutLast? (joint .and) (a ++ y.write (.node .or l r) ++ b) = none :=
      cutLast?_eq_none_of_words .and (and_not_mem_words y (.or hl hr) hs ha hb)
    have hright : Operator.or.symbol.toList ∉ words ([] ++ y.write r ++ (y.closing ++ b)) :=
      symbol_not_mem_words_comparison y rfl hr hsr .nil (hclosing.append hb)
    rw [y.write_connective_around rfl] at hand ⊢
    rw [tree_of_or hand (cutLast?_of_words hright), ih hsl (ha.append hopening) .nil,
      tree_write_comparison y hr hsr .nil (hclosing.append hb)]
    rfl

/- The brackets of a node are cut apart: what opens stays with the left part, and what closes with
the right one. So the induction is on chains with brackets of any number on both sides. -/
theorem tree_write (ht : IsAndChain t) (hs : y.Suits t) (ha : IsBrackets a)
    (hb : IsBrackets b) : tree (a ++ y.write t ++ b) = .ok t := by
  induction ht generalizing a b with
  | clause h => exact tree_write_orChain y h hs ha hb
  | @and l r hl hr ih =>
    obtain ⟨hsl, hsr⟩ := hs.parts rfl
    obtain ⟨hopening, hclosing⟩ := y.isBrackets
    have hright : Operator.and.symbol.toList ∉ words ([] ++ y.write r ++ (y.closing ++ b)) :=
      and_not_mem_words y hr hsr .nil (hclosing.append hb)
    rw [y.write_connective_around rfl, tree_of_and (cutLast?_of_words hright),
      ih hsl (ha.append hopening) .nil, tree_write_orChain y hr hsr .nil (hclosing.append hb)]
    rfl

theorem write_isNormal (ht : IsAndChain t) : IsNormal (y.write t) ∧ y.write t ≠ [] := by
  refine ht.node_induction (motive := fun t => IsNormal (y.write t) ∧ y.write t ≠ [])
    (fun u hu => ?_) (fun op l r hop hl hr => ?_)
  · obtain @⟨op, field, right, hop, hfield, hright⟩ := hu
    have hnormal : IsNormal right.toList := by
      rcases hright with h | ⟨inner, h⟩
      · exact h.isNormal
      · exact h.isNormal
    have hne := (rightOperand_toList hright).ne_nil
    rw [y.write_comparison hop, Layout.gap]
    refine ⟨?_, by simp [hfield.1]⟩
    cases y.spaced with
    | false =>
      have hsymbol : IsNormal op.symbol.toList := .of_not_blank (symbol_not_blank op)
      simpa using hfield.isNormal.append (hsymbol.append hnormal)
    | true => simpa [joint] using hfield.isNormal.joint op hnormal hfield.1 hne
  · have hbrackets (a : List Char) (ha : IsBrackets a) : IsNormal a :=
      .of_not_blank fun c hc => (ha.plain hc).2.2
    have hline := hl.1.joint op hr.1 hl.2 hr.2
    rw [y.write_connective hop]
    exact ⟨((hbrackets _ y.isBrackets.1).append hline).append (hbrackets _ y.isBrackets.2),
      by simp [hl.2]⟩

theorem parse_write (ht : IsAndChain t) (hs : y.Suits t) :
    parse (String.ofList (y.write t)) = .ok t := by
  have hread := tree_write y ht hs .nil .nil
  rw [List.nil_append, List.append_nil] at hread
  rw [(write_isNormal y ht).1.parse_eq, hread]

theorem parse_comparison (ht : IsComparison t) (hs : y.Suits t) {s : String}
    (htext : s.toList = y.write t) : parse s = .ok t := by
  have hread := parse_write y (.clause (.comparison ht)) hs
  rwa [← htext, String.ofList_toList] at hread

/-- The trees that are read from texts are the chains, and each of them is read from its most
compact text: without brackets, and with spaces around connectives only. -/
theorem read_iff_isAndChain (t : Tree) :
    ((∃ rule, parse rule = .ok t) ↔ IsAndChain t) ∧
      (IsAndChain t ↔ parse (String.ofList (Layout.compact.write t)) = .ok t) := by
  have hwrite (ht : IsAndChain t) : parse (String.ofList (Layout.compact.write t)) = .ok t :=
    parse_write .compact ht fun hs => by cases hs
  constructor
  · constructor
    · rintro ⟨rule, h⟩
      exact isAndChain_of_parse rule t h
    · exact fun ht => ⟨_, hwrite ht⟩
  · exact ⟨hwrite, isAndChain_of_parse _ t⟩

theorem formula_eq_write (t : Tree) : t.formula = String.ofList (Layout.full.write t) := by
  induction t with
  | operand s => simp [Tree.formula, Layout.write]
  | node op l r ihl ihr =>
    apply String.toList_injective
    cases hop : op.isConnective with
    | true =>
      simp [Tree.formula, Layout.write, hop, ihl, ihr, Layout.full, Layout.opening, Layout.closing,
        joint]
    | false =>
      simp [Tree.formula, Layout.write, hop, ihl, ihr, Layout.full, Layout.gap]

/-- The formula of a rule is a rule text for the same tree, although rule texts have no brackets,
unless a field is named like a connective. -/
theorem parse_formula (rule : String) (t : Tree) (h : parse rule = .ok t)
    (hand : "AND" ∉ t.subjects) (hor : "OR" ∉ t.subjects) : parse t.formula = .ok t := by
  rw [formula_eq_write]
  refine parse_write .full (isAndChain_of_parse rule t h) fun _ op hop => ?_
  cases op with
  | and => exact hand
  | or => exact hor
  | _ => cases hop

theorem parse_formula_quoted :
    ∃ t, parse "a='(x AND' OR b<=10  AND (ANDY != ' OR')" = .ok t ∧ "AND" ∉ t.subjects ∧
      "OR" ∉ t.subjects ∧ parse t.formula = .ok t := by
  have h : parse "a='(x AND' OR b<=10  AND (ANDY != ' OR')" = .ok
      (.node .and
        (.node .or (.node .eq (.operand "a") (.operand "'(x AND'"))
          (.node .le (.operand "b") (.operand "10")))
        (.node .ne (.operand "ANDY") (.operand "' OR'"))) := by decide +kernel
  have hand : "AND" ∉ ["a", "b", "ANDY"] := by decide
  have hor : "OR" ∉ ["a", "b", "ANDY"] := by decide
  exact ⟨_, h, hand, hor, parse_formula _ _ h hand hor⟩

-- The formula of this rule has one more " AND " than the rule.
example : (parse "a=1 OR AND=2").map Tree.formula = .ok "(a = 1 OR AND = 2)" ∧
    parse "(a = 1 OR AND = 2)" = .error (.unreadable "= 2)") := by decide +kernel

end RuleText
end Rulebook
