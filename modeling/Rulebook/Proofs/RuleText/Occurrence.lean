import Rulebook.Proofs.RuleText.Runs
import Rulebook.Proofs.RuleText.Words

/-! Where a comparison may stand in a text, and which one is read: of all that start first, the one
whose right operand is the longest. -/

namespace Rulebook.RuleText
open Text

def signs : List String := ["<=", ">=", "!=", "<", ">", "="]

structure Occurrence where
  before : List Char
  word : List Char
  gap : List Char
  sign : String
  pad : List Char
  right : List Char
  after : List Char
  word_ne_nil : word ≠ []
  word_letters : ∀ c ∈ word, isLetter c
  gap_blank : ∀ c ∈ gap, isBlank c
  sign_mem : sign ∈ signs
  pad_blank : ∀ c ∈ pad, isBlank c
  right_operand : RightOperand right

namespace Occurrence

def tail (o : Occurrence) : List Char :=
  o.word ++ (o.gap ++ (o.sign.toList ++ (o.pad ++ (o.right ++ o.after))))

def text (o : Occurrence) : List Char := o.before ++ o.tail

def reading (o : Occurrence) : Except Fault Tree := do
  let op ← Operator.read o.sign
  return .node op (.operand (String.ofList o.word)) (.operand (String.ofList o.right))

/-- No comparison of the same text starts before this one, and none that starts with it has a longer
right operand. -/
def IsFirst (o : Occurrence) : Prop :=
  ∀ o' : Occurrence, o'.text = o.text → o.before.length ≤ o'.before.length ∧
    (o'.before.length = o.before.length → o'.right.length ≤ o.right.length)

variable {o : Occurrence} {cs : List Char} {t : Tree}

theorem exists_operator (o : Occurrence) :
    ∃ op : Operator, op.symbol = o.sign ∧ op.isConnective = false ∧ o.reading =
      .ok (.node op (.operand (String.ofList o.word)) (.operand (String.ofList o.right))) := by
  have hsign : ∃ op : Operator, op.symbol = o.sign ∧ op.isConnective = false := by
    have hmem := o.sign_mem
    simp only [signs, List.mem_cons, List.not_mem_nil, or_false] at hmem
    rcases hmem with h | h | h | h | h | h
    · exact ⟨.le, h.symm, rfl⟩
    · exact ⟨.ge, h.symm, rfl⟩
    · exact ⟨.ne, h.symm, rfl⟩
    · exact ⟨.lt, h.symm, rfl⟩
    · exact ⟨.gt, h.symm, rfl⟩
    · exact ⟨.eq, h.symm, rfl⟩
  obtain ⟨op, hop, hconnective⟩ := hsign
  refine ⟨op, hop, hconnective, ?_⟩
  rw [reading, ← hop, Operator.read, Operator.ofSymbol?_symbol]
  rfl

theorem symbol_mem_signs {op : Operator} (hop : op.isConnective = false) :
    op.symbol ∈ signs := by
  cases op with
  | and | or => cases hop
  | _ => decide

theorem comparisonHere?_tail (o : Occurrence) : ∃ op more, o.reading =
      .ok (.node op (.operand (String.ofList o.word)) (.operand (String.ofList o.right))) ∧
    comparisonHere? o.tail = some
      (.node op (.operand (String.ofList o.word)) (.operand (String.ofList (o.right ++ more)))) := by
  obtain ⟨op, hsymbol, hop, hreading⟩ := o.exists_operator
  obtain ⟨more, -, -, hmore⟩ := rightOperand?_more o.right_operand o.after
  refine ⟨op, more, hreading, ?_⟩
  rw [tail, ← hsymbol, comparisonHere?_sign o.gap o.pad _ hop o.word_ne_nil o.word_letters
    o.gap_blank o.pad_blank (o.right_operand.head_append _), hmore]
  rfl

theorem of_comparisonHere? (before : List Char) (h : comparisonHere? cs = some t) :
    ∃ o : Occurrence, o.before = before ∧ o.tail = cs ∧ o.reading = .ok t := by
  obtain ⟨op, word, gap, pad, right, after, hcs, ht, hop, ⟨hword, hletters⟩, hgap, hpad, hright⟩ :=
    comparisonHere?_split h
  let o : Occurrence := ⟨before, word, gap, op.symbol, pad, right, after, hword, hletters, hgap,
    symbol_mem_signs hop, hpad, hright⟩
  obtain ⟨op', hsymbol, -, hreading⟩ := o.exists_operator
  have hsame : op' = op := Operator.symbol_injective hsymbol
  refine ⟨o, rfl, hcs.symm, ?_⟩
  rw [hreading, hsame, ht]

theorem tail_suffix (o : Occurrence) : o.tail <:+ o.text := ⟨o.before, rfl⟩

theorem tail_eq {o' : Occurrence} (htext : o'.text = o.text)
    (hlen : o'.before.length = o.before.length) : o'.tail = o.tail :=
  (List.append_inj htext hlen).2

theorem of_comparison? (h : comparison? cs = some t) :
    ∃ o : Occurrence, o.text = cs ∧ o.IsFirst ∧ o.reading = .ok t := by
  obtain ⟨r, ⟨before, rfl⟩, hr, hfirst⟩ := comparison?_eq_some h
  obtain ⟨o, rfl, rfl, hreading⟩ := of_comparisonHere? before hr
  refine ⟨o, rfl, fun o' htext => ?_, hreading⟩
  obtain ⟨op', more, -, hthere⟩ := o'.comparisonHere?_tail
  have hle : o.before.length ≤ o'.before.length := by
    by_contra hlt
    have hlen := congrArg List.length htext
    have hsuffix : o'.tail <:+ o.text := htext ▸ o'.tail_suffix
    rw [text, text, List.length_append, List.length_append] at hlen
    rw [hfirst o'.tail hsuffix (by omega)] at hthere
    cases hthere
  refine ⟨hle, fun hlen => ?_⟩
  obtain ⟨op, -, -, hop⟩ := o.exists_operator
  rw [hop, Except.ok.injEq] at hreading
  rw [tail_eq htext hlen, hr, ← hreading] at hthere
  simp only [Option.some.injEq, Tree.node.injEq, Tree.operand.injEq, String.ofList_inj] at hthere
  rw [hthere.2.2, List.length_append]
  omega

theorem reading_eq {o' : Occurrence} (htail : o'.tail = o.tail)
    (hlen : o'.right.length = o.right.length) : o'.reading = o.reading := by
  obtain ⟨op, more, hreading, hhere⟩ := o.comparisonHere?_tail
  obtain ⟨op', more', hreading', hthere⟩ := o'.comparisonHere?_tail
  rw [htail, hhere] at hthere
  simp only [Option.some.injEq, Tree.node.injEq, Tree.operand.injEq, String.ofList_inj] at hthere
  obtain ⟨hop, hword, hright⟩ := hthere
  rw [hreading, hreading', hop, hword, (List.append_inj hright hlen.symm).1]

theorem IsFirst.readAtom_eq (h : o.IsFirst) : readAtom o.text = o.reading := by
  obtain ⟨op, more, -, hhere⟩ := o.comparisonHere?_tail
  obtain ⟨t, ht⟩ := exists_comparison? o.tail_suffix hhere
  obtain ⟨o', htext, hfirst, hreading⟩ := of_comparison? ht
  obtain ⟨hbefore, hright⟩ := h o' htext
  obtain ⟨hbefore', hright'⟩ := hfirst o htext.symm
  have hplace : o'.before.length = o.before.length := by omega
  have hlen : o'.right.length = o.right.length := by
    have := hright hplace
    have := hright' hplace.symm
    omega
  rw [readAtom, ht, ← reading_eq (tail_eq htext hplace) hlen, hreading]

/-- A letter before the word would start an earlier occurrence. -/
theorem IsFirst.isRun_word (h : o.IsFirst) : IsRun isLetter o.before o.word
    (o.gap ++ (o.sign.toList ++ (o.pad ++ (o.right ++ o.after)))) where
  inside := o.word_letters
  left := by
    intro c hc hletter
    obtain ⟨x, hx⟩ := List.getLast?_eq_some_iff.mp hc
    have hletters : ∀ d ∈ c :: o.word, isLetter d :=
      List.forall_mem_cons.mpr ⟨hletter, o.word_letters⟩
    let o' : Occurrence :=
      { o with before := x, word := c :: o.word, word_ne_nil := by simp, word_letters := hletters }
    have htext : o'.text = o.text := by simp [text, tail, o', hx]
    have hle : o.before.length ≤ x.length := (h o' htext).1
    rw [hx, List.length_append, List.length_singleton] at hle
    omega
  right := by
    obtain ⟨op, hsymbol, hop, -⟩ := o.exists_operator
    rw [← hsymbol]
    exact not_letter_after_word hop o.gap _ o.gap_blank

theorem IsFirst.isRun_digits (h : o.IsFirst) (hdigits : ∀ c ∈ o.right, Numeral.isDigit c) :
    IsRun Numeral.isDigit (o.before ++ o.word ++ o.gap ++ o.sign.toList ++ o.pad) o.right
      o.after where
  inside := hdigits
  left := by
    obtain ⟨op, hsymbol, hop, -⟩ := o.exists_operator
    have hsign : ∀ c ∈ op.symbol.toList.getLast?, ¬ Numeral.isDigit c := by
      cases op with
      | and | or => cases hop
      | _ => simp [Operator.symbol, Numeral.isDigit]
    rw [List.getLast?_append]
    cases hpad : o.pad.getLast? with
    | none =>
      rw [Option.none_or, ← hsymbol, List.getLast?_append_of_ne_nil _ (symbol_ne_nil op)]
      exact hsign
    | some x =>
      intro c hc hdigit
      have hblank := o.pad_blank x (List.mem_of_getLast? hpad)
      rw [Option.some.inj hc, Decimal.isBlank_of_isDigit hdigit] at hblank
      cases hblank
  right := by
    intro c hc hdigit
    -- A digit behind the digits on the right would make them longer.
    obtain ⟨r, hr⟩ : ∃ r, o.after = c :: r := List.head?_eq_some_iff.mp hc
    have hmore : RightOperand (o.right ++ [c]) := by
      refine .digits (by simp) fun d hd => ?_
      rcases List.mem_append.mp hd with hd | hd
      · exact hdigits d hd
      · rwa [List.mem_singleton.mp hd]
    let o' : Occurrence := { o with right := o.right ++ [c], after := r, right_operand := hmore }
    have htext : o'.text = o.text := by simp [text, tail, o', hr]
    have hle : (o.right ++ [c]).length ≤ o.right.length := (h o' htext).2 rfl
    rw [List.length_append, List.length_singleton] at hle
    omega

theorem exists_comparison?_iff :
    (∃ t, comparison? cs = some t) ↔ ∃ o : Occurrence, o.text = cs := by
  constructor
  · rintro ⟨t, ht⟩
    obtain ⟨o, htext, -, -⟩ := of_comparison? ht
    exact ⟨o, htext⟩
  · rintro ⟨o, rfl⟩
    obtain ⟨op, more, -, hhere⟩ := o.comparisonHere?_tail
    exact exists_comparison? o.tail_suffix hhere

end Occurrence

/-- A comparison is read of a text just if one occurs there. The first place decides, and at this
place the longest right operand. Its word is then a whole run of letters, and digits on its right
are a whole run of digits. -/
theorem readAtom_first_occurrence (s : String) :
    ((∃ t, readAtom s.toList = .ok t) ↔ ∃ o : Occurrence, o.text = s.toList) ∧
    ((∃ o : Occurrence, o.text = s.toList) → ∃ o : Occurrence, o.text = s.toList ∧ o.IsFirst) ∧
    (∀ o : Occurrence, o.text = s.toList → o.IsFirst →
      readAtom s.toList = o.reading ∧
      IsRun isLetter o.before o.word
        (o.gap ++ (o.sign.toList ++ (o.pad ++ (o.right ++ o.after)))) ∧
      ((∀ c ∈ o.right, Numeral.isDigit c) →
        IsRun Numeral.isDigit (o.before ++ o.word ++ o.gap ++ o.sign.toList ++ o.pad) o.right
          o.after)) ∧
    ((¬ ∃ o : Occurrence, o.text = s.toList) → readAtom s.toList = .error (.unreadable s)) := by
  refine ⟨?_, fun ho => ?_, fun o htext hfirst => ?_, fun hnone => ?_⟩
  · rw [← Occurrence.exists_comparison?_iff]
    exact exists_congr fun t => readAtom_eq_ok
  · obtain ⟨t, ht⟩ := Occurrence.exists_comparison?_iff.mpr ho
    obtain ⟨o, htext, hfirst, -⟩ := Occurrence.of_comparison? ht
    exact ⟨o, htext, hfirst⟩
  · rw [← htext]
    exact ⟨hfirst.readAtom_eq, hfirst.isRun_word, hfirst.isRun_digits⟩
  · rw [← Occurrence.exists_comparison?_iff] at hnone
    cases hc : comparison? s.toList with
    | some t => exact absurd ⟨t, hc⟩ hnone
    | none => rw [readAtom, hc, String.ofList_toList]

/-- Words that no sign follows are passed over, and so is a sign that no operand follows. The
comparison behind them could end after two digits, but three are read. -/
theorem readAtom_first_occurrence_late :
    ∃ o : Occurrence, o.text = "ab3 < 'x <= y >=  420z".toList ∧ o.IsFirst ∧
      o.reading = .ok (.node .ge (.operand "y") (.operand "420")) := by
  obtain ⟨-, hexists, hread, -⟩ := readAtom_first_occurrence "ab3 < 'x <= y >=  420z"
  obtain ⟨o, htext, hfirst⟩ := hexists
    ⟨⟨"ab3 < 'x <= ".toList, ['y'], [' '], ">=", [' ', ' '], ['4', '2'], ['0', 'z'], by simp,
      by simp [isLetter], by simp [isBlank], by simp [signs], by simp [isBlank],
      .digits (by simp) (by simp [Numeral.isDigit])⟩, by decide⟩
  exact ⟨o, htext, hfirst, (hread o htext hfirst).1.symm.trans (by decide +kernel)⟩

end Rulebook.RuleText
