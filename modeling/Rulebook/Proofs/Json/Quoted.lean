import Mathlib.Data.List.Basic
import Rulebook.Json.Quoted

/-! What stands between written quotes is read back, whatever characters it holds. -/

namespace Rulebook.Quoted

theorem length_le_byteCount (cs : List Char) : cs.length ≤ byteCount cs := by
  induction cs with
  | nil => simp
  | cons c r ih =>
    have h : byteCount (c :: r) = c.utf8Size + byteCount r := by
      simp [byteCount]
    have hc := c.utf8Size_pos
    rw [h, List.length_cons]
    omega

theorem hexValue?_hexDigit (n : Nat) : hexValue? (hexDigit n) = some (n % 16) := by
  have h : ∀ m < 16, hexValue? (hexDigit m) = some m := by decide
  have hm : n % 16 < 16 := Nat.mod_lt n (by decide)
  simpa [hexDigit] using h (n % 16) hm

theorem unit?_ofDigits (a b c d : Char) (w x y z : Nat) (r : List Char)
    (ha : hexValue? a = some w) (hb : hexValue? b = some x) (hc : hexValue? c = some y)
    (hd : hexValue? d = some z) :
    unit? (a :: b :: c :: d :: r) = .ok (((w * 16 + x) * 16 + y) * 16 + z) := by
  have hn : ¬ byteCount ((a :: b :: c :: d :: r).take 4) < 4 := by
    have := length_le_byteCount [a, b, c, d]
    simpa using this
  simp only [unit?, if_neg hn, ha, hb, hc, hd]

def piece (c : Char) : Piece :=
  if c.toNat < 32 ∧ c ≠ '\x08' ∧ c ≠ '\x0c' ∧ c ≠ '\n' ∧ c ≠ '\r' ∧ c ≠ '\t' then .unit c.toNat
  else .char c

theorem pieces_unit (n : Nat) (r : List Char) (h : n < 32) :
    pieces (['\\', 'u', '0', '0', hexDigit (n / 16), hexDigit n] ++ r) =
      (.unit n :: (pieces r).1, (pieces r).2) := by
  have hz : hexValue? '0' = some 0 := by decide
  have hu := unit?_ofDigits '0' '0' (hexDigit (n / 16)) (hexDigit n) 0 0 (n / 16 % 16) (n % 16) r
    hz hz (hexValue?_hexDigit _) (hexValue?_hexDigit _)
  have hn : ((0 * 16 + 0) * 16 + n / 16 % 16) * 16 + n % 16 = n := by omega
  rw [hn] at hu
  simp only [List.cons_append, List.nil_append, pieces, hu]

theorem pieces_escaped (c e : Char) (r : List Char) (hc : c ≠ 'u') (he : escaped? c = some e) :
    pieces ('\\' :: c :: r) = (.char e :: (pieces r).1, (pieces r).2) := by
  rw [pieces.eq_5 c r hc]
  simp only [he]

theorem pieces_plain (c : Char) (r : List Char) (hq : c ≠ '"') (hb : c ≠ '\\')
    (h : ¬ c.toNat < 32) : pieces (c :: r) = (.char c :: (pieces r).1, (pieces r).2) := by
  rw [pieces.eq_6 c r hq (fun e _ => hb e) (fun _ e _ => hb e) (fun _ _ e _ => hb e)]
  simp only [if_neg h]

theorem pieces_escape (c : Char) (r : List Char) :
    pieces (escape c ++ r) = (piece c :: (pieces r).1, (pieces r).2) := by
  have hd (a e : Char) (ha : a ≠ 'u') (he : escaped? a = some e) :
      pieces (['\\', a] ++ r) = (.char e :: (pieces r).1, (pieces r).2) :=
    pieces_escaped a e r ha he
  unfold escape
  split
  · next h => subst h; exact hd '"' '"' (by decide) rfl
  split
  · next h => subst h; exact hd '\\' '\\' (by decide) rfl
  split
  · next h => subst h; exact hd 'b' '\x08' (by decide) rfl
  split
  · next h => subst h; exact hd 'f' '\x0c' (by decide) rfl
  split
  · next h => subst h; exact hd 'n' '\n' (by decide) rfl
  split
  · next h => subst h; exact hd 'r' '\r' (by decide) rfl
  split
  · next h => subst h; exact hd 't' '\t' (by decide) rfl
  split
  · next hb hf hn hr ht hc =>
    rw [pieces_unit c.toNat r hc, piece, if_pos ⟨hc, hb, hf, hn, hr, ht⟩]
  · next hq hs _ _ _ _ _ hc =>
    have hp : piece c = .char c := if_neg fun h => hc h.1
    rw [hp]
    exact pieces_plain c r hq hs hc

theorem text_piece (stop : Option JsonFault) (c : Char) (ps : List Piece) :
    text stop (piece c :: ps) = (text stop ps).map (c :: ·) := by
  unfold piece
  split
  · next h =>
    have hn : c.toNat < 0xD800 ∨ 0xDFFF < c.toNat := by omega
    rw [text.eq_def]
    simp only [if_pos hn, Char.ofNat_toNat]
  · rfl

theorem pieces_flatMap_escape (cs rest : List Char) :
    pieces (cs.flatMap escape ++ '"' :: rest) = (cs.map piece, .ok rest) := by
  induction cs with
  | nil => rfl
  | cons c r ih =>
    rw [List.flatMap_cons, List.append_assoc, pieces_escape, ih]
    rfl

theorem text_map_piece (cs : List Char) : text none (cs.map piece) = .ok cs := by
  induction cs with
  | nil => rfl
  | cons c r ih =>
    rw [List.map_cons, text_piece, ih]
    rfl

theorem scan_flatMap_escape (s : String) (rest : List Char) :
    scan (s.toList.flatMap escape ++ '"' :: rest) = .found (.ok s) rest := by
  simp only [scan, pieces_flatMap_escape, text_map_piece]
  simp [Except.map]

end Rulebook.Quoted
