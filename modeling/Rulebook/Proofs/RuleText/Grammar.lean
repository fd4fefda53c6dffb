import Rulebook.Proofs.RuleText.Words

/-! The trees that rule texts have: a chain of ANDs over chains of ORs over comparisons, all
grouped to the left. -/

namespace Rulebook.RuleText
open Text

def IsField (s : String) : Prop := s.toList ≠ [] ∧ ∀ c ∈ s.toList, isLetter c

def IsNumeral (s : String) : Prop := s.toList ≠ [] ∧ ∀ c ∈ s.toList, Numeral.isDigit c

instance (s : String) : Decidable (IsField s) :=
  decidable_of_iff (s.toList ≠ [] ∧ s.toList.all isLetter) (by rw [IsField, List.all_eq_true])

instance (s : String) : Decidable (IsNumeral s) :=
  decidable_of_iff (s.toList ≠ [] ∧ s.toList.all Numeral.isDigit)
    (by rw [IsNumeral, List.all_eq_true])

/-- A text in quotes that a normal text can hold and that no connective cuts. -/
structure IsQuotation (s : String) (inner : List Char) : Prop where
  text : s.toList = '\'' :: inner ++ ['\'']
  nonempty : inner ≠ []
  quote : '\'' ∉ inner
  blank : ∀ c ∈ inner, isBlank c → c = ' '
  single : ¬ [' ', ' '] <:+: inner
  connective : ¬ " AND ".toList <:+: s.toList ∧ ¬ " OR ".toList <:+: s.toList

inductive IsComparison : Tree → Prop
  | mk {op : Operator} {field right : String} (hop : op.isConnective = false)
      (hfield : IsField field) (hright : IsNumeral right ∨ ∃ inner, IsQuotation right inner) :
      IsComparison (.node op (.operand field) (.operand right))

inductive IsOrChain : Tree → Prop
  | comparison {t : Tree} (h : IsComparison t) : IsOrChain t
  | or {l r : Tree} (hl : IsOrChain l) (hr : IsComparison r) : IsOrChain (.node .or l r)

inductive IsAndChain : Tree → Prop
  | clause {t : Tree} (h : IsOrChain t) : IsAndChain t
  | and {l r : Tree} (hl : IsAndChain l) (hr : IsOrChain r) : IsAndChain (.node .and l r)

theorem IsAndChain.node_induction {motive : Tree → Prop} {t : Tree} (ht : IsAndChain t)
    (comparison : ∀ u, IsComparison u → motive u)
    (node : ∀ op l r, op.isConnective → motive l → motive r → motive (.node op l r)) :
    motive t := by
  have hor (u : Tree) (hu : IsOrChain u) : motive u := by
    induction hu with
    | comparison h => exact comparison _ h
    | or hl hr ih => exact node .or _ _ rfl ih (comparison _ hr)
  induction ht with
  | clause h => exact hor _ h
  | and hl hr ih => exact node .and _ _ rfl ih (hor _ hr)

theorem IsNumeral.rightOperand {s : String} (h : IsNumeral s) : RightOperand s.toList :=
  .digits h.1 h.2

theorem IsQuotation.rightOperand {s : String} {inner : List Char} (h : IsQuotation s inner) :
    RightOperand s.toList := by
  rw [h.text]
  exact .quoted h.nonempty h.quote

theorem rightOperand_toList {s : String} (h : IsNumeral s ∨ ∃ inner, IsQuotation s inner) :
    RightOperand s.toList := by
  rcases h with h | ⟨inner, h⟩
  · exact h.rightOperand
  · exact h.rightOperand

theorem IsField.isNormal {s : String} (h : IsField s) : IsNormal s.toList :=
  .of_not_blank fun c hc => by simp [isBlank_of_isLetter (h.2 c hc)]

theorem IsNumeral.isNormal {s : String} (h : IsNumeral s) : IsNormal s.toList :=
  .of_not_blank fun c hc => by simp [Decimal.isBlank_of_isDigit (h.2 c hc)]

/-- Two blanks in a row would be two spaces, and both of them inside the quotes. -/
theorem IsQuotation.isNormal {s : String} {inner : List Char} (h : IsQuotation s inner) :
    IsNormal s.toList := by
  have hspace : ∀ c ∈ s.toList, isBlank c → c = ' ' := by
    intro c hc hb
    rw [h.text, List.mem_append, List.mem_cons, List.mem_singleton] at hc
    rcases hc with (rfl | hc) | rfl
    · exact absurd hb (by decide)
    · exact h.blank c hc hb
    · exact absurd hb (by decide)
  refine ⟨hspace, ?_, ?_, ?_⟩
  · rw [List.isChain_iff_forall_rel_of_append_cons_cons]
    rintro x y a b hab ⟨hx, hy⟩
    have hx' : x = ' ' := hspace x (by simp [hab]) hx
    have hy' : y = ' ' := hspace y (by simp [hab]) hy
    have hi : [' ', ' '] <:+: '\'' :: inner ++ ['\''] :=
      ⟨a, b, by rw [← h.text, hab, hx', hy']; simp⟩
    have hstart : ' ' ∉ ['\''] := by decide
    have hinner : ' ' :: [' '] <:+: inner ++ ['\''] := (cons_infix_append hstart).mp hi
    exact h.single ((infix_append_concat (w := [' ']) hstart).mp hinner)
  · intro c hc hb
    rw [h.text] at hc
    cases hc
    exact absurd hb (by decide)
  · intro c hc hb
    rw [h.text, List.getLast?_concat] at hc
    cases hc
    exact absurd hb (by decide)

theorem IsNumeral.not_cut {s : String} (h : IsNumeral s) (op : Operator) :
    cutLast? (joint op) s.toList = none := by
  rw [cutLast?_eq_none_iff (joint_ne_nil op)]
  intro hi
  have hspace := h.2 ' ' (hi.subset (by simp [joint]))
  revert hspace
  decide

theorem IsQuotation.not_cut {s : String} {inner : List Char} (h : IsQuotation s inner)
    {op : Operator} (hop : op.isConnective) : cutLast? (joint op) s.toList = none := by
  rw [cutLast?_eq_none_iff (joint_ne_nil op)]
  cases op with
  | and => exact h.connective.1
  | or => exact h.connective.2
  | _ => cases hop

theorem isQuotation_of_within {p inner : List Char} (hn : IsNormal p)
    (hand : cutLast? (joint .and) p = none) (hor : cutLast? (joint .or) p = none)
    (hne : inner ≠ []) (hquote : '\'' ∉ inner) (hp : '\'' :: inner ++ ['\''] <:+: p) :
    IsQuotation (String.ofList ('\'' :: inner ++ ['\''])) inner where
  text := String.toList_ofList
  nonempty := hne
  quote := hquote
  blank c hc := hn.blank c (hp.subset (by simp [hc]))
  single h := by
    have hinner : inner <:+: '\'' :: inner ++ ['\''] := ⟨['\''], ['\''], rfl⟩
    have hchain := hn.single.infix ((h.trans hinner).trans hp)
    exact (List.isChain_cons_cons.mp hchain).1 ⟨isBlank_space, isBlank_space⟩
  connective := by
    have htext : (String.ofList ('\'' :: inner ++ ['\''])).toList = '\'' :: inner ++ ['\''] :=
      String.toList_ofList
    rw [htext]
    exact ⟨fun h => (cutLast?_eq_none_iff (joint_ne_nil .and)).mp hand (h.trans hp),
      fun h => (cutLast?_eq_none_iff (joint_ne_nil .or)).mp hor (h.trans hp)⟩

theorem isComparison_of_readAtom {p : List Char} {t : Tree} (hn : IsNormal p)
    (hand : cutLast? (joint .and) p = none) (hor : cutLast? (joint .or) p = none)
    (h : readAtom p = .ok t) : IsComparison t := by
  obtain ⟨r, hr, hhere, -⟩ := comparison?_eq_some (readAtom_eq_ok.mp h)
  obtain ⟨op, word, right, rfl, hop, ⟨hword, hletters⟩, hright, hin⟩ :=
    comparisonHere?_eq_some hhere
  have hfield : IsField (String.ofList word) := by
    rw [IsField, String.toList_ofList]
    exact ⟨hword, hletters⟩
  refine .mk hop hfield ?_
  cases hright with
  | digits hne hdigits =>
    left
    rw [IsNumeral, String.toList_ofList]
    exact ⟨hne, hdigits⟩
  | quoted hne hquote =>
    exact .inr ⟨_, isQuotation_of_within hn hand hor hne hquote (hin.trans hr.isInfix)⟩

theorem isAndChain_of_parse (rule : String) (t : Tree) (h : parse rule = .ok t) :
    IsAndChain t := by
  have hn := normalChars_isNormal rule.toList
  rw [parse, tree_eq_joinAll] at h
  refine joinAll_chain _ t h (fun r hr u hu => ?_) (fun u => .clause) (fun l r => .and)
  obtain ⟨q, hq, rfl⟩ := List.mem_map.mp hr
  refine joinAll_chain _ u hu (fun r hr v hv => ?_) (fun v => .comparison) (fun l r => .or)
  obtain ⟨p, hp, rfl⟩ := List.mem_map.mp hr
  have hand : cutLast? (joint .and) p = none :=
    cutLast?_none_of_within (joint_ne_nil .and) (within_of_mem_parts hp) (cutLast?_of_mem_parts hq)
  exact isComparison_of_readAtom ((hn.of_mem_parts hq).of_mem_parts hp) hand
    (cutLast?_of_mem_parts hp) hv

theorem parse_operands (rule : String) (t : Tree) (h : parse rule = .ok t) :
    "" ∉ t.operands := by
  refine (isAndChain_of_parse rule t h).node_induction (motive := fun t => "" ∉ t.operands)
    (fun u hu => ?_) (fun op l r _ hl hr => ?_)
  · obtain @⟨op, field, right, hop, hfield, hright⟩ := hu
    have hempty : "".toList = [] := rfl
    intro ho
    have hoperand : "" = field ∨ "" = right := by simpa [Tree.operands] using ho
    rcases hoperand with rfl | rfl
    · exact hfield.1 hempty
    · exact (rightOperand_toList hright).ne_nil hempty
  · simp [Tree.operands, hl, hr]

end Rulebook.RuleText
