import Rulebook.Proofs.Decimal
import Rulebook.Timestamp

/-! A valid point in time is read back from its text, to the nanosecond. -/

namespace Rulebook.Timestamp
open Text Numeral Decimal

theorem digitChars_length_le (n k : Nat) (hk : 0 < k) (h : n < Nat.pow 10 k) :
    (digitChars n).length ≤ k := (Nat.length_toDigits_le_iff (by decide) hk).mpr h

theorem isDigit_of_mem_padded {width n : Nat} {c : Char} (h : c ∈ padded width n) :
    isDigit c := by
  rcases List.mem_append.mp h with h | h
  · rw [List.eq_of_mem_replicate h]
    decide
  · exact isDigit_of_mem_digitChars h

theorem ofDigitChars_padded (width n : Nat) : ofDigitChars (padded width n) = n := by
  rw [padded, ofDigitChars_zeros, ofDigitChars_digitChars]

theorem padded_ne_nil (width n : Nat) : padded width n ≠ [] := by
  simp [padded, digitChars_ne_nil]

theorem padded_length (width n : Nat) (hw : 0 < width) (h : n < Nat.pow 10 width) :
    (padded width n).length = width := by
  have := digitChars_length_le n width hw h
  simp only [padded, List.length_append, List.length_replicate]
  omega

theorem skipBlanks_of_not (c : Char) (r : List Char) (h : isBlank c = false) :
    skipBlanks (c :: r) = c :: r := List.dropWhile_cons_of_neg (by simp [h])

theorem exists_cons_padded (width n : Nat) : ∃ c r, padded width n = c :: r ∧ isDigit c := by
  obtain ⟨c, r, h⟩ := List.exists_cons_of_ne_nil (padded_ne_nil width n)
  have hmem : c ∈ padded width n := by simp [h]
  exact ⟨c, r, h, isDigit_of_mem_padded hmem⟩

theorem skipBlanks_padded (width n : Nat) (rest : List Char) :
    skipBlanks (padded width n ++ rest) = padded width n ++ rest := by
  obtain ⟨c, r, hp, hc⟩ := exists_cons_padded width n
  rw [hp]
  exact skipBlanks_of_not c _ (isBlank_of_isDigit hc)

theorem number?_digits (width : Nat) (ds rest : List Char) (hd : ∀ c ∈ ds, isDigit c)
    (hne : ds ≠ []) (hlen : ds.length = width ∨
      ds.length ≤ width ∧ ∀ c ∈ rest.head?, ¬ isDigit c) :
    number? width (ds ++ rest) = some (ofDigitChars ds, rest) := by
  have hle : ds.length ≤ width := by omega
  have hend : ∀ c ∈ (rest.take (width - ds.length)).head?, ¬ isDigit c := by
    rcases hlen with rfl | ⟨-, hr⟩
    · simp
    · intro c hc
      cases rest with
      | nil => simp at hc
      | cons d r =>
        cases hk : width - ds.length with
        | zero => simp [hk] at hc
        | succ k => exact hr c (by simpa [hk] using hc)
  have htake : ((ds ++ rest).take width).takeWhile isDigit = ds := by
    rw [List.take_append, List.take_of_length_le hle]
    exact takeWhile_append_stop ds _ hd hend
  simp [number?, htake, hne]

theorem number?_padded (width n : Nat) (rest : List Char) (hw : 0 < width)
    (h : n < Nat.pow 10 width) : number? width (padded width n ++ rest) = some (n, rest) := by
  have hfound := number?_digits width (padded width n) rest (fun c hc => isDigit_of_mem_padded hc)
    (padded_ne_nil width n) (.inl (padded_length width n hw h))
  rwa [ofDigitChars_padded] at hfound

theorem marked?_padded (mark : Char) (n : Nat) (rest : List Char) (hm : isBlank mark = false)
    (h : n < 100) : marked? mark (mark :: (padded 2 n ++ rest)) = some (n, rest) := by
  simp only [marked?, skipBlanks_of_not mark _ hm, skipBlanks_padded, if_true]
  exact number?_padded 2 n rest (by decide) h

theorem number?_minus (n : Nat) (rest : List Char) :
    number? (padded 4 n ++ '-' :: rest).length (padded 4 n ++ '-' :: rest) =
      some (n, '-' :: rest) := by
  have hminus : ∀ c ∈ ('-' :: rest).head?, ¬ isDigit c := by
    intro c hc
    cases hc
    decide
  have hfound := number?_digits (padded 4 n ++ '-' :: rest).length (padded 4 n) ('-' :: rest)
    (fun c hc => isDigit_of_mem_padded hc) (padded_ne_nil 4 n) (.inr ⟨by simp, hminus⟩)
  rwa [ofDigitChars_padded] at hfound

theorem year?_of_isDigit (c : Char) (r : List Char) (hc : isDigit c) :
    year? (c :: r) = (number? 4 (c :: r)).map fun (n, r) => ((n : Int), r) := by
  have hsign (d : Char) (hd : isDigit d = false) : c ≠ d := by
    rintro rfl
    exact absurd hc (by simp [hd])
  rw [year?]
  · exact fun _ h => hsign '-' (by decide) (List.cons.inj h).1
  · exact fun _ h => hsign '+' (by decide) (List.cons.inj h).1

theorem year?_yearText (year : Int) (rest : List Char) :
    year? (yearText year ++ '-' :: rest) = some (year, '-' :: rest) := by
  unfold yearText
  split
  · next hy =>
    have hn : year.toNat < Nat.pow 10 4 := by
      have : year.toNat < 10000 := by omega
      exact this
    have hpos : (year.toNat : Int) = year := by omega
    obtain ⟨c, r, hp, hc⟩ := exists_cons_padded 4 year.toNat
    have hfound := number?_padded 4 year.toNat ('-' :: rest) (by decide) hn
    rw [hp, List.cons_append] at hfound ⊢
    rw [year?_of_isDigit c _ hc, hfound]
    simp only [Option.map_some, hpos]
  · rw [List.cons_append]
    split
    · have hneg : -(year.natAbs : Int) = year := by omega
      rw [year?, number?_minus]
      simp only [Option.map_some, hneg]
    · have hpos : (year.natAbs : Int) = year := by omega
      rw [year?, number?_minus]
      simp only [Option.map_some, hpos]

theorem fraction?_padded (width n : Nat) (hw : 0 < width) (hle : width ≤ 9)
    (h : n < Nat.pow 10 width) :
    fraction? ('.' :: (padded width n ++ ['Z'])) = some (n * Nat.pow 10 (9 - width), ['Z']) := by
  have hlen := padded_length width n hw h
  have hz : ∀ c ∈ ['Z'].head?, ¬ isDigit c := by
    intro c hc
    cases hc
    decide
  have htake := takeWhile_append_stop (padded width n) ['Z'] (fun c hc => isDigit_of_mem_padded hc) hz
  have hnine : (padded width n).take 9 = padded width n := List.take_of_length_le (by omega)
  have hdrop : (padded width n ++ ['Z']).drop (padded width n).length = ['Z'] := List.drop_left
  rw [hlen] at hdrop
  simp only [fraction?, htake, hnine, if_neg (padded_ne_nil width n), hlen, hdrop,
    ofDigitChars_padded]

theorem fraction?_scaled (width n : Nat) (hw : 0 < width) (hle : width ≤ 9)
    (h : n < Nat.pow 10 9) (hz : n % Nat.pow 10 (9 - width) = 0) :
    fraction? ('.' :: (padded width (n / Nat.pow 10 (9 - width)) ++ ['Z'])) = some (n, ['Z']) := by
  have hpow : Nat.pow 10 (9 - width) * Nat.pow 10 width = Nat.pow 10 9 := by
    rw [Nat.pow_eq, Nat.pow_eq, Nat.pow_eq, ← Nat.pow_add, Nat.sub_add_cancel hle]
  have hlt : n / Nat.pow 10 (9 - width) < Nat.pow 10 width := by
    apply Nat.div_lt_of_lt_mul
    rwa [hpow]
  rw [fraction?_padded width _ hw hle hlt, Nat.div_mul_cancel (Nat.dvd_of_mod_eq_zero hz)]

theorem fraction?_fractionText (n : Nat) (h : n < 1000000000) :
    fraction? (fractionText n ++ ['Z']) = some (n, ['Z']) := by
  unfold fractionText
  split
  · next h0 => rw [h0]; rfl
  split
  · next hz => exact fraction?_scaled 3 n (by decide) (by decide) h hz
  split
  · next hz => exact fraction?_scaled 6 n (by decide) (by decide) h hz
  · rw [List.cons_append, fraction?_padded 9 n (by decide) (by decide) h]
    simp

theorem offset?_utc : offset? ['Z'] = some (0, []) := by decide

theorem toUniversal_zero (t : Timestamp) (hh : t.hour < 24) (hm : t.minute < 60) :
    t.toUniversal 0 = t := by
  have hlow : ¬ (60 * t.hour + t.minute : Int) - 0 < 0 := by omega
  have hhigh : ¬ (1440 : Int) ≤ (60 * t.hour + t.minute : Int) - 0 := by omega
  have hday : (((60 * t.hour + t.minute : Int) - 0) % 1440).toNat = 60 * t.hour + t.minute := by
    omega
  have hhour : (60 * t.hour + t.minute) / 60 = t.hour := by omega
  have hminute : (60 * t.hour + t.minute) % 60 = t.minute := by omega
  simp only [toUniversal, if_neg hlow, if_neg hhigh, hday, hhour, hminute]

theorem skipBlanks_yearText (year : Int) (rest : List Char) :
    skipBlanks (yearText year ++ rest) = yearText year ++ rest := by
  unfold yearText
  split
  · exact skipBlanks_padded 4 _ rest
  · split
    · exact skipBlanks_of_not '-' _ (by decide)
    · exact skipBlanks_of_not '+' _ (by decide)

theorem daysIn_le (year : Int) (month : Nat) : Date.daysIn year month ≤ 31 := by
  unfold Date.daysIn
  split
  · split <;> decide
  · split <;> decide

theorem read?_write (t : Timestamp) (h : t.Valid) : read? t.write = some t := by
  obtain ⟨hdate, hhour, hminute, hsecond, -⟩ := id h
  have hmonth : t.date.month < 100 := by
    have := hdate.2.2.1
    omega
  have hday : t.date.day < 100 := by
    have := hdate.2.2.2.2
    have := daysIn_le t.date.year t.date.month
    omega
  have hwrite : t.write = yearText t.date.year ++ '-' :: (padded 2 t.date.month ++
      '-' :: (padded 2 t.date.day ++ 'T' :: (padded 2 t.hour ++ ':' :: (padded 2 t.minute ++
        ':' :: (padded 2 t.second ++ (fractionText t.nanosecond ++ ['Z'])))))) := by
    simp [write]
  have hhour2 : t.hour < Nat.pow 10 2 := Nat.lt_trans hhour (by decide)
  have hz : skipBlanks ['Z'] = ['Z'] := by decide
  simp only [read?, hwrite, skipBlanks_yearText, year?_yearText, bind, Option.bind,
    marked?_padded '-' _ _ (by decide) hmonth, marked?_padded '-' _ _ (by decide) hday,
    skipBlanks_padded, number?_padded 2 t.hour _ (by decide) hhour2,
    marked?_padded ':' _ _ (by decide) (Nat.lt_trans hminute (by decide)),
    marked?_padded ':' _ _ (by decide) (Nat.lt_of_le_of_lt hsecond (by decide)),
    fraction?_fractionText _ h.2.2.2.2, hz, offset?_utc]
  rw [toUniversal_zero t hhour hminute]
  rw [if_pos (.inl trivial), if_pos ⟨rfl, h, h, by decide, by decide⟩]

end Rulebook.Timestamp
