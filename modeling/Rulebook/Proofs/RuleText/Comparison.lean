import Mathlib.Data.List.Infix
import Mathlib.Data.List.TakeWhile
import Rulebook.Proofs.Decimal
import Rulebook.RuleText.Comparison

/-! Comparisons are nodes over two operands: a word of letters, and digits or a text in quotes. What
is read of such a text is what was written there, whatever stands around it. -/

namespace Rulebook.RuleText
open Text Decimal

inductive RightOperand : List Char → Prop
  | digits {ds : List Char} (hne : ds ≠ []) (h : ∀ c ∈ ds, Numeral.isDigit c) : RightOperand ds
  | quoted {inner : List Char} (hne : inner ≠ []) (h : '\'' ∉ inner) :
      RightOperand ('\'' :: inner ++ ['\''])

theorem RightOperand.ne_nil {right : List Char} (h : RightOperand right) : right ≠ [] := by
  cases h with
  | digits hne h => exact hne
  | quoted hne h => simp

theorem sign?_eq_some {cs r : List Char} {op : Operator} (h : sign? cs = some (op, r)) :
    op.isConnective = false ∧ cs = op.symbol.toList ++ r := by
  unfold sign? at h
  split at h <;> cases h <;> exact ⟨rfl, rfl⟩

theorem rightOperand?_eq_some {cs right : List Char} (h : rightOperand? cs = some right) :
    RightOperand right ∧ right <+: cs := by
  unfold rightOperand? at h
  split at h
  · next r =>
    dsimp only at h
    split at h
    · next hinner =>
      obtain ⟨hne, hlen⟩ := hinner
      cases h
      have hr := List.takeWhile_append_dropWhile (p := (· != '\'')) (l := r)
      have hstop := List.head?_dropWhile_not (· != '\'') r
      cases hd : r.dropWhile (· != '\'') with
      | nil =>
        rw [hd, List.append_nil] at hr
        rw [hr] at hlen
        exact absurd hlen (Nat.lt_irrefl _)
      | cons c rest =>
        rw [hd] at hr hstop
        have hc : c = '\'' := by simpa using hstop
        refine ⟨.quoted hne fun hq => ?_, rest, ?_⟩
        · simpa using List.mem_takeWhile_imp hq
        · conv => rhs; rw [← hr, hc]
          simp
    · cases h
  · dsimp only at h
    split at h
    · next hne =>
      cases h
      exact ⟨.digits hne fun c hc => List.mem_takeWhile_imp hc, List.takeWhile_prefix _⟩
    · cases h

theorem comparisonHere?_split {cs : List Char} {t : Tree} (h : comparisonHere? cs = some t) :
    ∃ op word gap pad right rest,
      cs = word ++ (gap ++ (op.symbol.toList ++ (pad ++ (right ++ rest)))) ∧
      t = .node op (.operand (String.ofList word)) (.operand (String.ofList right)) ∧
      op.isConnective = false ∧ (word ≠ [] ∧ ∀ c ∈ word, isLetter c) ∧ (∀ c ∈ gap, isBlank c) ∧
      (∀ c ∈ pad, isBlank c) ∧ RightOperand right := by
  simp only [comparisonHere?] at h
  split at h
  · cases h
  · next hword =>
    obtain ⟨⟨op, r⟩, hsign, h⟩ := Option.bind_eq_some_iff.mp h
    obtain ⟨right, hright, rfl⟩ := Option.map_eq_some_iff.mp h
    obtain ⟨hop, hr⟩ := sign?_eq_some hsign
    obtain ⟨hoperand, rest, hrest⟩ := rightOperand?_eq_some hright
    refine ⟨op, cs.takeWhile isLetter, (cs.dropWhile isLetter).takeWhile isBlank,
      r.takeWhile isBlank, right, rest, ?_, rfl, hop, ⟨hword, fun c => List.mem_takeWhile_imp⟩,
      fun c => List.mem_takeWhile_imp, fun c => List.mem_takeWhile_imp, hoperand⟩
    rw [hrest, List.takeWhile_append_dropWhile, ← hr, List.takeWhile_append_dropWhile,
      List.takeWhile_append_dropWhile]

theorem comparisonHere?_eq_some {cs : List Char} {t : Tree} (h : comparisonHere? cs = some t) :
    ∃ op word right, t = .node op (.operand (String.ofList word)) (.operand (String.ofList right)) ∧
      op.isConnective = false ∧ (word ≠ [] ∧ ∀ c ∈ word, isLetter c) ∧ RightOperand right ∧
      right <:+: cs := by
  obtain ⟨op, word, gap, pad, right, rest, rfl, ht, hop, hword, -, -, hright⟩ :=
    comparisonHere?_split h
  refine ⟨op, word, right, ht, hop, hword, hright, ?_⟩
  exact ⟨word ++ (gap ++ (op.symbol.toList ++ pad)), rest, by simp⟩

theorem comparison?_eq_some {cs : List Char} {t : Tree} (h : comparison? cs = some t) :
    ∃ r, r <:+ cs ∧ comparisonHere? r = some t ∧
      ∀ s, s <:+ cs → r.length < s.length → comparisonHere? s = none := by
  induction cs with
  | nil => cases h
  | cons c r ih =>
    rw [comparison?] at h
    cases hc : comparisonHere? (c :: r) with
    | some u =>
      rw [hc] at h
      cases h
      exact ⟨c :: r, List.suffix_refl _, hc, fun s hs hlt => absurd hs.length_le (Nat.not_le.mpr hlt)⟩
    | none =>
      rw [hc] at h
      obtain ⟨r', hr, ht, hfirst⟩ := ih h
      refine ⟨r', hr.trans (List.suffix_cons c r), ht, fun s hs hlt => ?_⟩
      rcases List.suffix_cons_iff.mp hs with rfl | hs
      · exact hc
      · exact hfirst s hs hlt

theorem exists_comparison? {cs r : List Char} {u : Tree} (hr : r <:+ cs)
    (h : comparisonHere? r = some u) : ∃ t, comparison? cs = some t := by
  induction cs with
  | nil =>
    rw [List.suffix_nil.mp hr] at h
    cases h
  | cons c cs ih =>
    rw [comparison?]
    cases hc : comparisonHere? (c :: cs) with
    | some t => exact ⟨t, rfl⟩
    | none =>
      rcases List.suffix_cons_iff.mp hr with rfl | hr
      · rw [hc] at h
        cases h
      · exact ih hr

theorem isBlank_of_isLetter {c : Char} (h : isLetter c) : isBlank c = false := by
  have hn : (97 ≤ c.toNat ∧ c.toNat ≤ 122) ∨ (65 ≤ c.toNat ∧ c.toNat ≤ 90) := by
    simpa [isLetter, Char.le_def, UInt32.le_iff_toNat_le] using h
  simp only [isBlank, Bool.or_eq_false_iff, Bool.and_eq_false_imp, decide_eq_true_eq,
    decide_eq_false_iff_not, beq_eq_false_iff_ne, ne_eq]
  omega

theorem isLetter_of_isDigit {c : Char} (h : Numeral.isDigit c) : isLetter c = false := by
  have hn : 48 ≤ c.toNat ∧ c.toNat ≤ 57 := by
    simpa [Numeral.isDigit, Char.le_def, UInt32.le_iff_toNat_le] using h
  rw [← Bool.not_eq_true]
  intro hl
  have hm : (97 ≤ c.toNat ∧ c.toNat ≤ 122) ∨ (65 ≤ c.toNat ∧ c.toNat ≤ 90) := by
    simpa [isLetter, Char.le_def, UInt32.le_iff_toNat_le] using hl
  omega

theorem RightOperand.ends {right : List Char} (h : RightOperand right) :
    (∀ c ∈ right.head?, Numeral.isDigit c ∨ c = '\'') ∧
      ∀ c ∈ right.getLast?, Numeral.isDigit c ∨ c = '\'' := by
  cases h with
  | digits hne h =>
    exact ⟨fun c hc => .inl (h c (List.mem_of_mem_head? hc)),
      fun c hc => .inl (h c (List.mem_of_mem_getLast? hc))⟩
  | quoted hne h =>
    refine ⟨fun c hc => .inr (by simpa using hc.symm), fun c hc => .inr ?_⟩
    rw [List.getLast?_concat, Option.mem_some_iff] at hc
    exact hc.symm

/-- A sign is the longest one at its place, so no equality sign may follow it. -/
theorem sign?_symbol {op : Operator} (hop : op.isConnective = false) (r : List Char)
    (hr : ∀ c ∈ r.head?, c ≠ '=') : sign? (op.symbol.toList ++ r) = some (op, r) := by
  cases op with
  | and | or => cases hop
  | eq | ne | le | ge => rfl
  | lt | gt =>
    cases r with
    | nil => rfl
    | cons c r =>
      have hc : c ≠ '=' := hr c rfl
      simp [Operator.symbol, sign?, hc]

theorem rightOperand?_more {right : List Char} (h : RightOperand right) (rest : List Char) :
    ∃ more, more <+: rest ∧ (∀ c ∈ more, Numeral.isDigit c) ∧
      rightOperand? (right ++ rest) = some (right ++ more) := by
  cases h with
  | digits hne h =>
    have htake : (right ++ rest).takeWhile Numeral.isDigit =
        right ++ rest.takeWhile Numeral.isDigit := List.takeWhile_append_of_pos h
    refine ⟨_, List.takeWhile_prefix Numeral.isDigit, fun c => List.mem_takeWhile_imp, ?_⟩
    unfold rightOperand?
    split
    · next r heq =>
      cases right with
      | nil => exact absurd rfl hne
      | cons d ds =>
        have hd : d = '\'' := (List.cons.inj heq).1
        have := h d (by simp)
        rw [hd] at this
        exact absurd this (by decide)
    · simp [htake, hne]
  | quoted hne h =>
    next inner =>
    -- The closing quote is the first one, whatever follows it.
    have htake : (inner ++ '\'' :: rest).takeWhile (· != '\'') = inner := by
      refine takeWhile_append_stop inner ('\'' :: rest) (fun c hc => ?_) (by simp)
      have : c ≠ '\'' := by
        rintro rfl
        exact h hc
      simpa using this
    have htext : '\'' :: inner ++ ['\''] ++ rest = '\'' :: (inner ++ '\'' :: rest) := by simp
    refine ⟨[], List.nil_prefix, by simp, ?_⟩
    rw [htext, rightOperand?, htake]
    simp [hne]

theorem rightOperand?_append {right : List Char} (h : RightOperand right) (rest : List Char)
    (hrest : ∀ c ∈ rest.head?, ¬ Numeral.isDigit c) :
    rightOperand? (right ++ rest) = some right := by
  obtain ⟨more, ⟨r, rfl⟩, hdigits, hread⟩ := rightOperand?_more h rest
  cases more with
  | nil => rw [hread, List.append_nil]
  | cons c more => exact absurd (hdigits c (by simp)) (hrest c rfl)

theorem forall_head?_append {P : Char → Prop} {a b : List Char} (ha : ∀ c ∈ a, P c)
    (hb : ∀ c ∈ b.head?, P c) : ∀ c ∈ (a ++ b).head?, P c := by
  cases a with
  | nil => exact hb
  | cons x a =>
    intro c hc
    cases hc
    exact ha x List.mem_cons_self

theorem not_letter_after_word {op : Operator} (hop : op.isConnective = false) (gap rest : List Char)
    (hgap : ∀ c ∈ gap, isBlank c) :
    ∀ c ∈ (gap ++ (op.symbol.toList ++ rest)).head?, ¬ isLetter c := by
  refine forall_head?_append (fun c hc hl => ?_) fun c hc => ?_
  · have hblank := hgap c hc
    rw [isBlank_of_isLetter hl] at hblank
    cases hblank
  · revert c
    cases op with
    | and | or => cases hop
    | _ => simp [Operator.symbol, isLetter]

theorem comparisonHere?_sign {op : Operator} {word : List Char} (gap pad rest : List Char)
    (hop : op.isConnective = false) (hword : word ≠ []) (hletters : ∀ c ∈ word, isLetter c)
    (hgap : ∀ c ∈ gap, isBlank c) (hpad : ∀ c ∈ pad, isBlank c)
    (hrest : ∀ c ∈ rest.head?, Numeral.isDigit c ∨ c = '\'') :
    comparisonHere? (word ++ (gap ++ (op.symbol.toList ++ (pad ++ rest)))) =
      (rightOperand? rest).map fun right =>
        .node op (.operand (String.ofList word)) (.operand (String.ofList right)) := by
  have hsymbol : ∀ c ∈ (op.symbol.toList ++ (pad ++ rest)).head?, ¬ isBlank c := by
    cases op with
    | and | or => cases hop
    | _ => simp [Operator.symbol, isBlank]
  have hsign : ∀ c ∈ (pad ++ rest).head?, c ≠ '=' := by
    refine forall_head?_append (fun c hc he => ?_) fun c hc he => ?_
    · have hblank := hpad c hc
      revert hblank
      rw [he]
      decide
    · rcases hrest c hc with h | h <;> rw [he] at h <;> revert h <;> decide
  have hoperand : ∀ c ∈ rest.head?, ¬ isBlank c := by
    intro c hc
    rcases hrest c hc with h | rfl
    · simp [isBlank_of_isDigit h]
    · decide
  have hend := not_letter_after_word hop gap (pad ++ rest) hgap
  -- Each part ends where the next one starts with a character of another kind.
  rw [comparisonHere?, takeWhile_append_stop word _ hletters hend, if_neg hword,
    dropWhile_append_stop word _ hletters hend, dropWhile_append_stop gap _ hgap hsymbol,
    sign?_symbol hop _ hsign, Option.bind_some]
  simp only [dropWhile_append_stop pad rest hpad hoperand]

theorem RightOperand.head_append {right : List Char} (h : RightOperand right) (rest : List Char) :
    ∀ c ∈ (right ++ rest).head?, Numeral.isDigit c ∨ c = '\'' := by
  rw [List.head?_append_of_ne_nil _ h.ne_nil]
  exact h.ends.1

theorem comparisonHere?_append {op : Operator} {word right : List Char} (gap rest : List Char)
    (hop : op.isConnective = false) (hword : word ≠ []) (hletters : ∀ c ∈ word, isLetter c)
    (hright : RightOperand right) (hgap : ∀ c ∈ gap, isBlank c)
    (hrest : ∀ c ∈ rest.head?, ¬ Numeral.isDigit c) :
    comparisonHere? (word ++ (gap ++ (op.symbol.toList ++ (gap ++ (right ++ rest))))) =
      some (.node op (.operand (String.ofList word)) (.operand (String.ofList right))) := by
  rw [comparisonHere?_sign gap gap _ hop hword hletters hgap hgap (hright.head_append rest),
    rightOperand?_append hright rest hrest]
  rfl

theorem comparison?_append_left (cs : List Char) {a : List Char} (ha : ∀ c ∈ a, ¬ isLetter c) :
    comparison? (a ++ cs) = comparison? cs := by
  induction a with
  | nil => rfl
  | cons c a ih =>
    have hhere : comparisonHere? (c :: (a ++ cs)) = none := by
      rw [comparisonHere?, List.takeWhile_cons_of_neg (ha c (by simp)), if_pos rfl]
    rw [List.cons_append, comparison?, hhere, ih fun x hx => ha x (List.mem_cons_of_mem c hx)]
    rfl

theorem comparison?_of_here {cs : List Char} {t : Tree} (h : comparisonHere? cs = some t) :
    comparison? cs = some t := by
  cases cs with
  | nil => cases h
  | cons c r => rw [comparison?, h]; rfl

end Rulebook.RuleText
