import Mathlib.Data.List.Basic
import Rulebook.Proofs.Json.Layout
import Rulebook.Proofs.Json.Quoted

/-! Written values are read back as their documents, and nothing is left over, whatever blanks
stand between their parts. A number may be written otherwise than it is read, so the numbers of a
value have to be stable. -/

namespace Rulebook

namespace JsonText

def Ends (rest : List Char) : Prop :=
  ∀ c ∈ rest.head?, ¬ Numeral.isDigit c ∧ c ≠ '.' ∧ c ≠ 'e' ∧ c ≠ 'E'

theorem ends_nil : Ends [] := by simp [Ends]

theorem ends_cons (c : Char) (rest : List Char)
    (h : ¬ Numeral.isDigit c ∧ c ≠ '.' ∧ c ≠ 'e' ∧ c ≠ 'E') : Ends (c :: rest) := by
  intro d hd
  cases hd
  exact h

end JsonText

def JsonNumber.Stable (n : JsonNumber) : Prop :=
  (∀ c ∈ n.write.head?, c = '-' ∨ Numeral.isDigit c) ∧ n.write ≠ [] ∧
    ∀ rest, JsonText.Ends rest → JsonText.number (n.write ++ rest) = (.number (.ok n), some rest)

namespace Json

mutual

def Stable : Json → Prop
  | .number n => n.Stable
  | .array items => ItemsStable items
  | .object members => MembersStable members
  | _ => True

def ItemsStable : List Json → Prop
  | [] => True
  | v :: r => v.Stable ∧ ItemsStable r

def MembersStable : List (String × Json) → Prop
  | [] => True
  | (_, v) :: r => v.Stable ∧ MembersStable r

end

end Json

namespace JsonText

theorem skipSpace_cons (c : Char) (r : List Char) (h : isSpace c = false) :
    skipSpace (c :: r) = c :: r := by
  simp [skipSpace, h]

theorem skipSpace_append (ws cs : List Char) (h : ∀ c ∈ ws, isSpace c) :
    skipSpace (ws ++ cs) = skipSpace cs := List.dropWhile_append_of_pos h

theorem ends_append (ws rest : List Char) (h : ∀ c ∈ ws, isSpace c) (hr : Ends rest) :
    Ends (ws ++ rest) := by
  cases ws with
  | nil => exact hr
  | cons c ws =>
    refine ends_cons c _ ?_
    have hc := h c List.mem_cons_self
    simp only [isSpace, Bool.or_eq_true, beq_iff_eq] at hc
    rcases hc with ((rfl | rfl) | rfl) | rfl <;> decide

theorem isSpace_of_isDigit (c : Char) (h : c = '-' ∨ Numeral.isDigit c) : isSpace c = false := by
  rcases h with rfl | h
  · decide
  · cases hs : isSpace c with
    | false => rfl
    | true =>
      simp only [isSpace, Bool.or_eq_true, beq_iff_eq] at hs
      rcases hs with ((rfl | rfl) | rfl) | rfl <;> revert h <;> decide

/- One step of the reader for each form of a value. -/

theorem value_null (fuel : Nat) (rest : List Char) :
    value (fuel + 1) ("null".toList ++ rest) = (.null, some rest) := by
  simp [value, skipSpace_cons, isSpace, word]

theorem value_true (fuel : Nat) (rest : List Char) :
    value (fuel + 1) ("true".toList ++ rest) = (.boolean true, some rest) := by
  simp [value, skipSpace_cons, isSpace, word]

theorem value_false (fuel : Nat) (rest : List Char) :
    value (fuel + 1) ("false".toList ++ rest) = (.boolean false, some rest) := by
  simp [value, skipSpace_cons, isSpace, word]

theorem value_text (fuel : Nat) (s : String) (rest : List Char) :
    value (fuel + 1) (Quoted.write s ++ rest) = (.text (.ok s), some rest) := by
  have h : Quoted.write s ++ rest = '"' :: (s.toList.flatMap Quoted.escape ++ '"' :: rest) := by
    simp [Quoted.write]
  rw [h]
  simp only [value, skipSpace_cons '"' _ rfl, quoted, Quoted.scan_flatMap_escape]

theorem value_of_digit (fuel : Nat) (c : Char) (r : List Char) (hc : c = '-' ∨ Numeral.isDigit c) :
    value (fuel + 1) (c :: r) = number (c :: r) := by
  have hother (d : Char) (hd : ¬ (d = '-' ∨ Numeral.isDigit d)) : c ≠ d := by
    rintro rfl
    exact hd hc
  simp only [value, skipSpace_cons c _ (isSpace_of_isDigit c hc)]
  split
  · next h => cases h
  · next h => exact absurd (List.cons.inj h).1 (hother _ (by decide))
  · next h => exact absurd (List.cons.inj h).1 (hother _ (by decide))
  · next h => exact absurd (List.cons.inj h).1 (hother _ (by decide))
  · next h => exact absurd (List.cons.inj h).1 (hother _ (by decide))
  · next h => exact absurd (List.cons.inj h).1 (hother _ (by decide))
  · next h => exact absurd (List.cons.inj h).1 (hother _ (by decide))
  · next h =>
    injection h with h h'
    subst h h'
    rw [if_pos hc]

theorem value_number (fuel : Nat) (n : JsonNumber) (rest : List Char) (hn : n.Stable)
    (hr : Ends rest) : value (fuel + 1) (n.write ++ rest) = (.number (.ok n), some rest) := by
  obtain ⟨hhead, hne, hread⟩ := hn
  cases hw : n.write with
  | nil => exact absurd hw hne
  | cons c r =>
    have hread := hread rest hr
    rw [hw, List.cons_append] at hread
    rw [List.cons_append, value_of_digit fuel c _ (hhead c (by simp [hw])), hread]

theorem value_space (fuel : Nat) (ws cs : List Char) (h : ∀ c ∈ ws, isSpace c) :
    value fuel (ws ++ cs) = value fuel cs := by
  cases fuel with
  | zero => rfl
  | succ fuel => rw [value, value, skipSpace_append ws cs h]

theorem items_space (fuel : Nat) (ws cs : List Char) (h : ∀ c ∈ ws, isSpace c) :
    items fuel (ws ++ cs) = items fuel cs := by
  cases fuel with
  | zero => rfl
  | succ fuel => rw [items, items, value_space fuel ws cs h]

theorem members_space (fuel : Nat) (ws cs : List Char) (h : ∀ c ∈ ws, isSpace c) :
    members fuel (ws ++ cs) = members fuel cs := by
  cases fuel with
  | zero => rfl
  | succ fuel => rw [members, members, skipSpace_append ws cs h]

theorem value_array_nil (fuel : Nat) (rest : List Char) :
    value (fuel + 1) ('[' :: ']' :: rest) = (.array (.done none), some rest) := rfl

theorem value_array (fuel : Nat) (ws : List Char) (c : Char) (r : List Char)
    (h : ∀ c ∈ ws, isSpace c) (hs : isSpace c = false) (hc : c ≠ ']') :
    value (fuel + 1) ('[' :: (ws ++ c :: r)) =
      (.array (items fuel (ws ++ c :: r)).1, (items fuel (ws ++ c :: r)).2) := by
  simp only [value, skipSpace_cons '[' _ rfl, skipSpace_append ws _ h, skipSpace_cons c r hs]
  split
  · next h => exact absurd h (by simp)
  · next h => injection h with h _; exact absurd h hc
  · rfl

theorem value_object_nil (fuel : Nat) (rest : List Char) :
    value (fuel + 1) ('{' :: '}' :: rest) = (.object (.done none), some rest) := rfl

theorem value_object (fuel : Nat) (ws r : List Char) (h : ∀ c ∈ ws, isSpace c) :
    value (fuel + 1) ('{' :: (ws ++ '"' :: r)) =
      (.object (members fuel ('"' :: r)).1, (members fuel ('"' :: r)).2) := by
  simp only [value, skipSpace_cons '{' _ rfl, skipSpace_append ws _ h, skipSpace_cons '"' r rfl]
  rw [members_space fuel ws _ h]
  rfl

theorem items_last (fuel : Nat) (cs ws rest : List Char) (d : Document)
    (hws : ∀ c ∈ ws, isSpace c) (h : value fuel cs = (d, some (ws ++ ']' :: rest))) :
    items (fuel + 1) cs = (.item d (.done none), some rest) := by
  simp only [items, h, skipSpace_append ws _ hws, skipSpace_cons ']' rest rfl]

theorem items_more (fuel : Nat) (cs r : List Char) (d : Document)
    (h : value fuel cs = (d, some (',' :: r))) :
    items (fuel + 1) cs = (.item d (items fuel r).1, (items fuel r).2) := by
  simp only [items, h, skipSpace_cons ',' r rfl]

theorem members_last (fuel : Nat) (k : String) (cs ws rest : List Char) (d : Document)
    (hws : ∀ c ∈ ws, isSpace c) (h : value fuel cs = (d, some (ws ++ '}' :: rest))) :
    members (fuel + 1) (Quoted.write k ++ ':' :: cs) =
      (.member (.ok k) d (.done none), some rest) := by
  simp only [Quoted.write, List.cons_append, List.append_assoc, List.nil_append, members,
    skipSpace_cons '"' _ rfl, Quoted.scan_flatMap_escape, skipSpace_cons ':' _ rfl, h,
    skipSpace_append ws _ hws, skipSpace_cons '}' rest rfl]

theorem members_more (fuel : Nat) (k : String) (cs r : List Char) (d : Document)
    (h : value fuel cs = (d, some (',' :: r))) :
    members (fuel + 1) (Quoted.write k ++ ':' :: cs) =
      (.member (.ok k) d (members fuel r).1, (members fuel r).2) := by
  simp only [Quoted.write, List.cons_append, List.append_assoc, List.nil_append, members,
    skipSpace_cons '"' _ rfl, Quoted.scan_flatMap_escape, skipSpace_cons ':' _ rfl, h,
    skipSpace_cons ',' r rfl]

section
variable (layout : Json.Layout) (depth : Nat)

theorem writeIn_cons (v : Json) (h : v.Stable) :
    ∃ c r, v.writeIn layout depth = c :: r ∧ isSpace c = false ∧ c ≠ ']' := by
  cases v with
  | null => exact ⟨'n', _, rfl, rfl, by decide⟩
  | boolean b =>
    cases b with
    | true => exact ⟨'t', _, rfl, rfl, by decide⟩
    | false => exact ⟨'f', _, rfl, rfl, by decide⟩
  | number n =>
    obtain ⟨hhead, hne, -⟩ := h
    cases hw : n.write with
    | nil => exact absurd hw hne
    | cons c r =>
      have hc : c = '-' ∨ Numeral.isDigit c := hhead c (by simp [hw])
      refine ⟨c, r, hw, isSpace_of_isDigit c hc, ?_⟩
      rintro rfl
      exact absurd hc (by decide)
  | text s => exact ⟨'"', _, rfl, rfl, by decide⟩
  | array items => cases items <;> exact ⟨'[', _, rfl, rfl, by decide⟩
  | object members => cases members <;> exact ⟨'{', _, rfl, rfl, by decide⟩

theorem itemsIn_cons (v : Json) (r : List Json) (h : v.Stable) (rest : List Char) :
    ∃ c cs, Json.itemsIn layout depth (v :: r) ++ rest = c :: cs ∧ isSpace c = false ∧
      c ≠ ']' := by
  obtain ⟨c, cs, hw, hs, hc⟩ := writeIn_cons layout depth v h
  cases r with
  | nil => exact ⟨c, cs ++ rest, by simp [Json.itemsIn, hw], hs, hc⟩
  | cons w r => exact ⟨c, _, by simp only [Json.itemsIn, hw, List.cons_append]; rfl, hs, hc⟩

theorem membersIn_cons (m : String × Json) (r : List (String × Json)) (rest : List Char) :
    ∃ cs, Json.membersIn layout depth (m :: r) ++ rest = '"' :: cs := by
  obtain ⟨k, v⟩ := m
  cases r with
  | nil => exact ⟨_, rfl⟩
  | cons m r => exact ⟨_, rfl⟩

end

mutual

/-- Two units of fuel for each character are enough. -/
theorem value_writeIn (layout : Json.Layout) (depth : Nat) (v : Json) (fuel : Nat)
    (rest : List Char) (hv : v.Stable) (hr : Ends rest)
    (hf : 2 * (v.writeIn layout depth).length ≤ fuel) :
    value fuel (v.writeIn layout depth ++ rest) = (v.document, some rest) := by
  -- A written value is not empty, so there is fuel for one step at least.
  obtain ⟨fuel, rfl⟩ : ∃ n, fuel = n + 1 := by
    obtain ⟨c, r, hw, -⟩ := writeIn_cons layout depth v hv
    rw [hw, List.length_cons] at hf
    exact ⟨fuel - 1, by omega⟩
  have hgap (n : Nat) : ∀ c ∈ layout.gap n, isSpace c := layout.gap_space n
  match v with
  | .null => exact value_null fuel rest
  | .boolean true => exact value_true fuel rest
  | .boolean false => exact value_false fuel rest
  | .number n => exact value_number fuel n rest hv hr
  | .text s => exact value_text fuel s rest
  | .array [] => exact value_array_nil fuel rest
  | .array (w :: r) =>
    simp only [Json.writeIn, List.length_cons, List.length_append] at hf
    have hi := items_writeIn layout (depth + 1) w r fuel (layout.gap depth) rest hv (hgap depth)
      (by omega)
    rw [← items_space fuel _ _ (hgap (depth + 1))] at hi
    obtain ⟨c, cs, hw, hs, hc⟩ := itemsIn_cons layout (depth + 1) w r hv.1
      (layout.gap depth ++ ']' :: rest)
    have ht : (Json.array (w :: r)).writeIn layout depth ++ rest =
        '[' :: (layout.gap (depth + 1) ++ c :: cs) := by
      simp [Json.writeIn, ← hw]
    rw [hw] at hi
    rw [ht, value_array fuel _ c cs (hgap (depth + 1)) hs hc, hi]
    rfl
  | .object [] => exact value_object_nil fuel rest
  | .object (m :: r) =>
    simp only [Json.writeIn, List.length_cons, List.length_append] at hf
    have hm := members_writeIn layout (depth + 1) m r fuel (layout.gap depth) rest hv (hgap depth)
      (by omega)
    obtain ⟨cs, hw⟩ := membersIn_cons layout (depth + 1) m r (layout.gap depth ++ '}' :: rest)
    have ht : (Json.object (m :: r)).writeIn layout depth ++ rest =
        '{' :: (layout.gap (depth + 1) ++ '"' :: cs) := by
      simp [Json.writeIn, ← hw]
    rw [hw] at hm
    rw [ht, value_object fuel _ cs (hgap (depth + 1)), hm]
    rfl
termination_by fuel

theorem items_writeIn (layout : Json.Layout) (depth : Nat) (v : Json) (r : List Json) (fuel : Nat)
    (ws rest : List Char) (h : Json.ItemsStable (v :: r)) (hws : ∀ c ∈ ws, isSpace c)
    (hf : 2 * (Json.itemsIn layout depth (v :: r)).length < fuel) :
    items fuel (Json.itemsIn layout depth (v :: r) ++ (ws ++ ']' :: rest)) =
      (Json.itemsDocument (v :: r), some rest) := by
  obtain ⟨fuel, rfl⟩ : ∃ n, fuel = n + 1 := ⟨fuel - 1, by omega⟩
  match r with
  | [] =>
    simp only [Json.itemsIn] at hf
    exact items_last fuel _ ws rest _ hws (value_writeIn layout depth v fuel (ws ++ ']' :: rest) h.1
      (ends_append ws _ hws (ends_cons ']' _ (by decide))) (by omega))
  | w :: r =>
    simp only [Json.itemsIn, List.length_cons, List.length_append] at hf
    have hv := value_writeIn layout depth v fuel
      (',' :: (layout.gap depth ++ (Json.itemsIn layout depth (w :: r) ++ (ws ++ ']' :: rest)))) h.1
      (ends_cons ',' _ (by decide)) (by omega)
    have hi := items_writeIn layout depth w r fuel ws rest h.2 hws (by omega)
    have ht : Json.itemsIn layout depth (v :: w :: r) ++ (ws ++ ']' :: rest) =
        v.writeIn layout depth ++ ',' :: (layout.gap depth ++
          (Json.itemsIn layout depth (w :: r) ++ (ws ++ ']' :: rest))) := by
      simp [Json.itemsIn]
    rw [ht, items_more fuel _ _ _ hv, items_space fuel _ _ (layout.gap_space depth), hi]
    rfl
termination_by fuel

theorem members_writeIn (layout : Json.Layout) (depth : Nat) (m : String × Json)
    (r : List (String × Json)) (fuel : Nat) (ws rest : List Char)
    (h : Json.MembersStable (m :: r)) (hws : ∀ c ∈ ws, isSpace c)
    (hf : 2 * (Json.membersIn layout depth (m :: r)).length < fuel) :
    members fuel (Json.membersIn layout depth (m :: r) ++ (ws ++ '}' :: rest)) =
      (Json.membersDocument (m :: r), some rest) := by
  obtain ⟨fuel, rfl⟩ : ∃ n, fuel = n + 1 := ⟨fuel - 1, by omega⟩
  obtain ⟨k, v⟩ := m
  match r with
  | [] =>
    simp only [Json.membersIn, List.length_cons, List.length_append] at hf
    have hv := value_writeIn layout depth v fuel (ws ++ '}' :: rest) h.1
      (ends_append ws _ hws (ends_cons '}' _ (by decide))) (by omega)
    rw [← value_space fuel _ _ layout.colon_space] at hv
    have ht : Json.membersIn layout depth [(k, v)] ++ (ws ++ '}' :: rest) =
        Quoted.write k ++ ':' ::
          (layout.colon ++ (v.writeIn layout depth ++ (ws ++ '}' :: rest))) := by
      simp [Json.membersIn]
    rw [ht, members_last fuel k _ ws rest _ hws hv]
    rfl
  | m :: r =>
    simp only [Json.membersIn, List.length_cons, List.length_append] at hf
    have hv := value_writeIn layout depth v fuel
      (',' :: (layout.gap depth ++ (Json.membersIn layout depth (m :: r) ++ (ws ++ '}' :: rest))))
      h.1 (ends_cons ',' _ (by decide)) (by omega)
    rw [← value_space fuel _ _ layout.colon_space] at hv
    have hm := members_writeIn layout depth m r fuel ws rest h.2 hws (by omega)
    have ht : Json.membersIn layout depth ((k, v) :: m :: r) ++ (ws ++ '}' :: rest) =
        Quoted.write k ++ ':' :: (layout.colon ++ (v.writeIn layout depth ++ ',' ::
          (layout.gap depth ++
            (Json.membersIn layout depth (m :: r) ++ (ws ++ '}' :: rest))))) := by
      simp [Json.membersIn]
    rw [ht, members_more fuel k _ _ _ hv, members_space fuel _ _ (layout.gap_space depth), hm]
    rfl
termination_by fuel

end

theorem ofChars_writeIn (layout : Json.Layout) (depth : Nat) (v : Json) (h : v.Stable) :
    ofChars (v.writeIn layout depth) = ⟨v.document, false⟩ := by
  have hv := value_writeIn layout depth v (2 * (v.writeIn layout depth).length + 2) [] h ends_nil
    (by omega)
  rw [List.append_nil] at hv
  simp [ofChars, hv, skipSpace]

theorem ofString_render (v : Json) (h : v.Stable) : ofString v.render = ⟨v.document, false⟩ := by
  rw [ofString, Json.render, String.toList_ofList, ← Json.writeIn_compact 0,
    ofChars_writeIn .compact 0 v h]

theorem ofString_writeLines (depth : Nat) (v : Json) (h : v.Stable) :
    ofString (String.ofList (v.writeLines depth)) = ⟨v.document, false⟩ := by
  rw [ofString, String.toList_ofList, ← Json.writeIn_lines, ofChars_writeIn .lines depth v h]

theorem read_eq_ok {α : Type} {t : JsonText} {reader : Document → Except JsonFault α} {a : α} :
    t.read reader = .ok a ↔ reader t.root = .ok a ∧ t.trailing = false := by
  unfold read
  cases reader t.root with
  | error f => simp [bind, Except.bind]
  | ok b =>
    cases t.trailing with
    | true => simp [bind, Except.bind]
    | false => simp [bind, Except.bind, pure, Except.pure]

theorem read_render {α : Type} (v : Json) (h : v.Stable)
    (reader : Document → Except JsonFault α) :
    (ofString v.render).read reader = reader v.document := by
  rw [ofString_render v h, read]
  cases reader v.document with
  | ok a => rfl
  | error f => rfl

end JsonText
end Rulebook
