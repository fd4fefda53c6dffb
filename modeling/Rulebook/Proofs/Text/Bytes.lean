import Mathlib.Data.String.Basic

/-! The order of texts. Code points and the bytes of UTF-8 give the same lexicographic order: of two
characters the lesser one has the lesser bytes, and no byte that follows can change that. -/

namespace Rulebook.Text

def bytes (s : String) : List UInt8 := s.toByteArray.data.toList

def codePoints (s : String) : List Nat := s.toList.map Char.toNat

theorem bytes_eq (s : String) : bytes s = s.toList.flatMap String.utf8EncodeChar := by
  rw [bytes, ← String.utf8Encode_toList, List.utf8Encode, List.data_toByteArray]

theorem codePoints_eq (s : String) : codePoints s = s.toList.flatMap fun c => [c.toNat] :=
  List.map_eq_flatMap

/- Words in the place of letters keep the lexicographic order, if each two of them differ before
either one ends. -/

theorem flatMap_lt_flatMap {α β : Type} [LT α] [LT β] {f : α → List β} (hne : ∀ a, f a ≠ [])
    (hf : ∀ a b, a < b → ∀ r r', f a ++ r < f b ++ r') {l l' : List α} (h : l < l') :
    l.flatMap f < l'.flatMap f := by
  induction h with
  | @nil b r =>
    obtain ⟨x, y, hb⟩ := List.exists_cons_of_ne_nil (hne b)
    rw [List.flatMap_nil, List.flatMap_cons, hb]
    exact List.Lex.nil
  | rel hab =>
    rw [List.flatMap_cons, List.flatMap_cons]
    exact hf _ _ hab _ _
  | cons _ ih =>
    rw [List.flatMap_cons, List.flatMap_cons]
    exact List.Lex.append_left _ ih _

theorem flatMap_lt_iff {β : Type} [LT β] [Std.Asymm fun a b : β => a < b] {f : Char → List β}
    (hne : ∀ c, f c ≠ []) (hf : ∀ c d, c < d → ∀ r r', f c ++ r < f d ++ r') (s t : String) :
    s.toList.flatMap f < t.toList.flatMap f ↔ s < t := by
  refine ⟨fun h => ?_, fun h => flatMap_lt_flatMap hne hf (String.lt_iff_toList_lt.mp h)⟩
  rcases lt_trichotomy s t with hst | rfl | hts
  · exact hst
  · exact absurd h (List.lt_asymm h)
  · exact absurd h (List.lt_asymm (flatMap_lt_flatMap hne hf (String.lt_iff_toList_lt.mp hts)))

/-- A number in `k` bytes of six binary digits each, after a byte with a mark and the digits above
them. -/
def word (mark : Nat) : Nat → Nat → List UInt8
  | 0, n => [UInt8.ofNat (mark + n)]
  | k + 1, n => word mark k (n / 64) ++ [UInt8.ofNat (n % 64 + 128)]

theorem word_eq_cons (mark k n : Nat) :
    ∃ tail, word mark k n = UInt8.ofNat (mark + n / 64 ^ k) :: tail := by
  induction k generalizing n with
  | zero => exact ⟨[], by rw [word, Nat.pow_zero, Nat.div_one]⟩
  | succ k ih =>
    obtain ⟨tail, h⟩ := ih (n / 64)
    rw [Nat.div_div_eq_div_mul, ← Nat.pow_succ'] at h
    exact ⟨tail ++ [UInt8.ofNat (n % 64 + 128)], by rw [word, h, List.cons_append]⟩

theorem ofNat_lt_ofNat {a b : Nat} (h : a < b) (hb : b < 256) : UInt8.ofNat a < UInt8.ofNat b :=
  (UInt8.ofNat_lt_iff_lt (h.trans hb) hb).mpr h

theorem word_lt_of_first {mark mark' k k' m n : Nat} (r r' : List UInt8)
    (h : mark + m / 64 ^ k < mark' + n / 64 ^ k') (hn : mark' + n / 64 ^ k' < 256) :
    word mark k m ++ r < word mark' k' n ++ r' := by
  obtain ⟨tail, hm⟩ := word_eq_cons mark k m
  obtain ⟨tail', hn'⟩ := word_eq_cons mark' k' n
  rw [hm, hn']
  exact List.Lex.rel (ofNat_lt_ofNat h hn)

theorem word_lt {mark k m n : Nat} (r r' : List UInt8) (h : m < n)
    (hn : mark + n / 64 ^ k < 256) : word mark k m ++ r < word mark k n ++ r' := by
  induction k generalizing m n r r' with
  | zero =>
    rw [Nat.pow_zero, Nat.div_one] at hn
    exact List.Lex.rel (ofNat_lt_ofNat (Nat.add_lt_add_left h mark) hn)
  | succ k ih =>
    rw [word, word, List.append_assoc, List.append_assoc]
    rcases (Nat.div_le_div_right (c := 64) h.le).lt_or_eq with hlow | hsame
    · rw [Nat.pow_succ', ← Nat.div_div_eq_div_mul] at hn
      exact ih _ _ hlow hn
    · have hlast : UInt8.ofNat (m % 64 + 128) < UInt8.ofNat (n % 64 + 128) :=
        ofNat_lt_ofNat (by omega) (by omega)
      rw [hsame]
      exact List.Lex.append_left _ (List.Lex.rel hlast) _

def following (n : Nat) : Nat :=
  if n ≤ 0x7f then 0 else if n ≤ 0x7ff then 1 else if n ≤ 0xffff then 2 else 3

/-- The least first byte of a word in which so many bytes follow. No byte is left for a fifth one. -/
def mark : Nat → Nat
  | 0 => 0
  | 1 => 0xc0
  | 2 => 0xe0
  | 3 => 0xf0
  | _ => 0x100

theorem toNat_lt (c : Char) : c.toNat < 0x110000 := by
  rcases c.valid with hlow | ⟨-, hhigh⟩
  · exact Nat.lt_trans hlow (by decide)
  · exact hhigh

theorem utf8EncodeChar_eq (c : Char) :
    String.utf8EncodeChar c = word (mark (following c.toNat)) (following c.toNat) c.toNat := by
  have htop := toNat_lt c
  unfold String.utf8EncodeChar following
  rw [Char.toNat_val]
  generalize c.toNat = n at htop ⊢
  dsimp only
  split_ifs
  · rw [mark, word, Nat.zero_add]
  all_goals
    simp only [word, mark, List.cons_append, List.nil_append, Nat.div_div_eq_div_mul]
    congr 2
    omega

theorem utf8EncodeChar_ne_nil (c : Char) : String.utf8EncodeChar c ≠ [] := by
  obtain ⟨tail, h⟩ := word_eq_cons (mark (following c.toNat)) (following c.toNat) c.toNat
  rw [utf8EncodeChar_eq, h]
  exact List.cons_ne_nil _ _

/- Each length has its own range of first bytes. -/

theorem first_lt_mark {n : Nat} (hn : n < 0x110000) :
    mark (following n) + n / 64 ^ following n < mark (following n + 1) := by
  unfold following
  split_ifs <;> simp only [mark, Nat.reducePow] <;> omega

theorem following_mono {m n : Nat} (h : m ≤ n) : following m ≤ following n ∧ following n < 4 := by
  unfold following
  split_ifs <;> omega

theorem mark_mono : ∀ j ≤ 4, ∀ i ≤ j, mark i ≤ mark j := by decide

theorem utf8EncodeChar_lt {c d : Char} (h : c < d) (r r' : List UInt8) :
    String.utf8EncodeChar c ++ r < String.utf8EncodeChar d ++ r' := by
  have hlt : c.toNat < d.toNat := h
  obtain ⟨hle, hfour⟩ := following_mono hlt.le
  have hbyte : mark (following d.toNat) + d.toNat / 64 ^ following d.toNat < 256 :=
    (first_lt_mark (toNat_lt d)).trans_le (mark_mono 4 (Nat.le_refl 4) _ hfour)
  rw [utf8EncodeChar_eq, utf8EncodeChar_eq]
  rcases hle.lt_or_eq with hless | hsame
  · refine word_lt_of_first r r' ?_ hbyte
    calc
      _ < mark (following c.toNat + 1) := first_lt_mark (toNat_lt c)
      _ ≤ mark (following d.toNat) := mark_mono _ hfour.le _ hless
      _ ≤ _ := Nat.le_add_right _ _
  · rw [hsame]
    exact word_lt r r' hlt hbyte

theorem bytes_lt_iff (s t : String) : bytes s < bytes t ↔ s < t := by
  rw [bytes_eq, bytes_eq]
  exact flatMap_lt_iff utf8EncodeChar_ne_nil (fun _ _ h => utf8EncodeChar_lt h) s t

theorem codePoints_lt_iff (s t : String) : codePoints s < codePoints t ↔ s < t := by
  have hpoint (c : Char) : [c.toNat] ≠ [] := List.cons_ne_nil _ _
  rw [codePoints_eq, codePoints_eq]
  exact flatMap_lt_iff hpoint (fun c d h r r' => List.Lex.rel h) s t

end Rulebook.Text
