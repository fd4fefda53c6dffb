import Rulebook.Proofs.RuleText.Parts

/-! The words of a text, between its spaces. A connective cuts only where it is a word of its own,
so a text without that word is not cut. -/

namespace Rulebook.RuleText

def words (cs : List Char) : List (List Char) := cs.splitOn ' '

theorem words_append (a b : List Char) : words (a ++ ' ' :: b) = words a ++ words b :=
  List.splitOn_append_cons_self a b

theorem words_of_no_space {cs : List Char} (h : ' ' ∉ cs) : words cs = [cs] :=
  List.splitOn_eq_singleton h

theorem space_not_mem_symbol (op : Operator) : ' ' ∉ op.symbol.toList := by
  cases op <;> decide

theorem words_joint (op : Operator) (a b : List Char) :
    words (a ++ joint op ++ b) = words a ++ op.symbol.toList :: words b := by
  have hcs : a ++ joint op ++ b = a ++ ' ' :: (op.symbol.toList ++ ' ' :: b) := by simp [joint]
  rw [hcs, words_append, words_append, words_of_no_space (space_not_mem_symbol op)]
  rfl

theorem symbol_mem_words {op : Operator} {cs : List Char} (h : joint op <:+: cs) :
    op.symbol.toList ∈ words cs := by
  obtain ⟨a, b, rfl⟩ := h
  rw [words_joint]
  simp

theorem cutLast?_eq_none_of_words (op : Operator) {cs : List Char}
    (h : op.symbol.toList ∉ words cs) : cutLast? (joint op) cs = none :=
  (cutLast?_eq_none_iff (joint_ne_nil op)).mpr fun hi => h (symbol_mem_words hi)

theorem cons_infix_append {c : Char} {w a b : List Char} (h : c ∉ a) :
    c :: w <:+: a ++ b ↔ c :: w <:+: b := by
  induction a with
  | nil => simp
  | cons x a ih =>
    have hx : ¬ c :: w <+: x :: (a ++ b) := by
      intro hp
      exact h (by simp [(List.cons_prefix_cons.mp hp).1])
    rw [List.cons_append, List.infix_cons_iff, ih fun hc => h (List.mem_cons_of_mem x hc)]
    simp [hx]

/-- A connective cuts between two texts, unless it cuts the right one, or that one starts as if
the connective stood there twice. -/
theorem cutLast?_joint {op : Operator} {a b : List Char}
    (hstart : ¬ op.symbol.toList ++ [' '] <+: b) (hb : cutLast? (joint op) b = none) :
    cutLast? (joint op) (a ++ joint op ++ b) = some (a, b) := by
  rw [cutLast?_eq_some_iff (joint_ne_nil op)]
  refine ⟨rfl, fun hi => ?_⟩
  have htail : (joint op).tail ++ b = op.symbol.toList ++ ' ' :: b := by simp [joint]
  have hjoint : joint op = ' ' :: (op.symbol.toList ++ [' ']) := rfl
  rw [htail, hjoint, cons_infix_append (space_not_mem_symbol op), List.infix_cons_iff] at hi
  rcases hi with hi | hi
  · exact hstart (List.cons_prefix_cons.mp hi).2
  · exact (cutLast?_eq_none_iff (joint_ne_nil op)).mp hb hi

theorem parts_joint {op : Operator} {a b : List Char}
    (hstart : ¬ op.symbol.toList ++ [' '] <+: b) :
    parts op (a ++ joint op ++ b) = parts op a ++ parts op b := by
  induction b using cut_induction op with
  | whole b hb => rw [parts_of_cut (cutLast?_joint hstart hb), parts_of_none hb]
  | cut b x y hb ih =>
    have hcut : cutLast? (joint op) (a ++ joint op ++ b) = some (a ++ joint op ++ x, y) := by
      rw [cutLast?_eq_some_iff (joint_ne_nil op)] at hb ⊢
      exact ⟨by simp [hb.1], hb.2⟩
    have hx : x <+: b := ⟨joint op ++ y, by simp [cutLast?_append hb]⟩
    rw [parts_of_cut hcut, ih fun hp => hstart (hp.trans hx), parts_of_cut hb, List.append_assoc]

theorem cutLast?_of_words {op : Operator} {a b : List Char} (h : op.symbol.toList ∉ words b) :
    cutLast? (joint op) (a ++ joint op ++ b) = some (a, b) := by
  refine cutLast?_joint (fun hp => h ?_) (cutLast?_eq_none_of_words op h)
  obtain ⟨r, rfl⟩ := hp
  have hcs : op.symbol.toList ++ [' '] ++ r = op.symbol.toList ++ ' ' :: r := by simp
  rw [hcs, words_append, words_of_no_space (space_not_mem_symbol op)]
  simp

theorem words_glued {a : List Char} (ha : ' ' ∉ a) (b : List Char) :
    ∃ u us, words b = u :: us ∧ words (a ++ b) = (a ++ u) :: us := by
  induction a with
  | nil =>
    obtain ⟨u, us, h⟩ := List.exists_cons_of_ne_nil (List.splitOn_ne_nil ' ' b)
    exact ⟨u, us, h, h⟩
  | cons x a ih =>
    obtain ⟨u, us, hb, h⟩ := ih fun hm => ha (List.mem_cons_of_mem x hm)
    have hx : ¬ (x == ' ') = true := by
      intro he
      exact ha (by simp [beq_iff_eq.mp he])
    refine ⟨u, us, hb, ?_⟩
    unfold words at h ⊢
    rw [List.cons_append, List.splitOn_cons_eq_if_modifyHead, if_neg hx, h]
    rfl

theorem symbol_not_mem_words_glued {op : Operator} {a b : List Char} (ha : ' ' ∉ a)
    (hother : ∃ x ∈ a, x ∉ op.symbol.toList) (hb : op.symbol.toList ∉ words b) :
    op.symbol.toList ∉ words (a ++ b) := by
  obtain ⟨u, us, hu, h⟩ := words_glued ha b
  obtain ⟨x, hx, hxop⟩ := hother
  rw [hu, List.mem_cons, not_or] at hb
  rw [h, List.mem_cons, not_or]
  refine ⟨fun he => hxop ?_, hb.2⟩
  rw [he]
  exact List.mem_append_left _ hx

theorem mem_intercalate_cut {w : List Char} (ws : List (List Char)) (h : w ∈ ws) :
    ∃ a b, [' '].intercalate ws = a ++ w ++ b ∧ (∀ c ∈ a.getLast?, c = ' ') ∧
      ∀ c ∈ b.head?, c = ' ' := by
  induction ws with
  | nil => cases h
  | cons v ws ih =>
    cases ws with
    | nil =>
      rw [List.mem_singleton.mp h]
      exact ⟨[], [], by simp, by simp, by simp⟩
    | cons v' ws =>
      rw [List.intercalate_cons_cons]
      rcases List.mem_cons.mp h with rfl | h
      · exact ⟨[], ' ' :: [' '].intercalate (v' :: ws), by simp, by simp, by simp⟩
      · obtain ⟨a, b, hab, ha, hb⟩ := ih h
        refine ⟨v ++ ' ' :: a, b, by simp [hab], fun c hc => ?_, hb⟩
        cases hl : a.getLast? with
        | none => simpa [hl, List.getLast?_cons, eq_comm] using hc
        | some x =>
          have hx := ha x hl
          simpa [hl, List.getLast?_cons, hx, eq_comm] using hc

theorem mem_words_cut {w cs : List Char} (h : w ∈ words cs) :
    ∃ a b, cs = a ++ w ++ b ∧ (∀ c ∈ a.getLast?, c = ' ') ∧ ∀ c ∈ b.head?, c = ' ' := by
  have hcs : [' '].intercalate (words cs) = cs := List.intercalate_splitOn ' '
  rw [← hcs]
  exact mem_intercalate_cut (words cs) h

theorem infix_append_concat {c : Char} {w a b : List Char} (h : c ∉ b) :
    w ++ [c] <:+: a ++ b ↔ w ++ [c] <:+: a := by
  have hb : c ∉ b.reverse := fun hc => h (List.mem_reverse.mp hc)
  have hrev : c :: w.reverse <:+: b.reverse ++ a.reverse ↔ c :: w.reverse <:+: a.reverse :=
    cons_infix_append hb
  rw [← List.reverse_infix, ← @List.reverse_infix _ (w ++ [c]) a]
  simpa using hrev

theorem isLetter_of_mem_symbol {op : Operator} (hop : op.isConnective) :
    ∀ c ∈ op.symbol.toList, isLetter c := by
  cases op with
  | and | or => simp [Operator.symbol, isLetter]
  | _ => cases hop

theorem not_letter_of_mem_symbol {op : Operator} (hop : op.isConnective = false) :
    ∀ c ∈ op.symbol.toList, ¬ isLetter c := by
  cases op with
  | and | or => cases hop
  | _ => simp [Operator.symbol, isLetter]

theorem symbol_ne_nil (op : Operator) : op.symbol.toList ≠ [] := by
  cases op <;> decide

/-- A text that neither starts nor ends with a letter has a connective for a word only where it is
cut by it. -/
theorem symbol_not_mem_words {op : Operator} (hop : op.isConnective) {a b : List Char}
    (hcut : cutLast? (joint op) a = none) (hb : ' ' ∉ b)
    (hhead : ∀ c ∈ (a ++ b).head?, ¬ isLetter c) (hlast : ∀ c ∈ (a ++ b).getLast?, ¬ isLetter c) :
    op.symbol.toList ∉ words (a ++ b) := by
  intro h
  have hletters := isLetter_of_mem_symbol hop
  have hne := symbol_ne_nil op
  obtain ⟨x, y, hxy, hx, hy⟩ := mem_words_cut h
  rw [hxy] at hhead hlast
  rcases List.eq_nil_or_concat x with rfl | ⟨x', d, rfl⟩
  · obtain ⟨c, r, hc⟩ := List.exists_cons_of_ne_nil hne
    exact hhead c (by simp [hc]) (hletters c (by simp [hc]))
  · cases y with
    | nil =>
      rw [List.append_nil, List.getLast?_append_of_ne_nil _ hne] at hlast
      obtain ⟨c, hc⟩ := Option.isSome_iff_exists.mp (List.getLast?_isSome.mpr hne)
      exact hlast c hc (hletters c (List.mem_of_mem_getLast? hc))
    | cons e y =>
      have hd : d = ' ' := hx d (by simp)
      have he : e = ' ' := hy e rfl
      have hi : joint op <:+: a ++ b := ⟨x', y, by rw [hxy, hd, he]; simp [joint]⟩
      have hjoint : joint op = (' ' :: op.symbol.toList) ++ [' '] := rfl
      rw [hjoint, infix_append_concat hb] at hi
      exact (cutLast?_eq_none_iff (joint_ne_nil op)).mp hcut hi

end Rulebook.RuleText
