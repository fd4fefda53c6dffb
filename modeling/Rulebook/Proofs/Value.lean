import Rulebook.Value

/-! Values that compare. Two numbers other than NaN have an order, and two texts have one. Values
that are equal stand in the same place of that order. -/

namespace Rulebook

namespace Binary64

theorem compare?_swap (x y : Binary64) : (x.compare? y).map Ordering.swap = y.compare? x := by
  cases x with
  | nan => cases y <;> rfl
  | signed s a =>
    cases y with
    | nan => rfl
    | signed t b => rw [compare?, compare?, Option.map_some, ← Std.OrientedOrd.eq_swap]

theorem equal_comm (x y : Binary64) : x.equal y = y.equal x := by
  rw [equal, equal, ← compare?_swap x y]
  cases x.compare? y with
  | none => rfl
  | some o => cases o <;> rfl

theorem IsFinite.ne_nan {x : Binary64} (h : x.IsFinite) : x ≠ .nan := by
  rintro rfl
  exact h

theorem equal_self {x : Binary64} (h : x ≠ .nan) : x.equal x := by
  cases x with
  | nan => exact absurd rfl h
  | signed s a => simp [equal, compare?]

theorem compare?_congr {x y : Binary64} (h : x.equal y) (z : Binary64) :
    x.compare? z = y.compare? z := by
  cases x with
  | nan => cases h
  | signed s a =>
    cases y with
    | nan => cases h
    | signed t b =>
      have hplace : place s a = place t b := by simpa [equal, compare?] using h
      cases z with
      | nan => rfl
      | signed u c => rw [compare?, compare?, hplace]

theorem equal_congr {x y : Binary64} (h : x.equal y) (z : Binary64) : x.equal z = y.equal z := by
  rw [equal, equal, compare?_congr h z]

end Binary64

namespace Value
variable {a b : Value}

theorem equal_comm (a b : Value) : a.equal b = b.equal a := by
  cases a with
  | boolean p =>
    cases b with
    | boolean q => exact BEq.comm
    | _ => rfl
  | number x =>
    cases b with
    | number y => exact Binary64.equal_comm x y
    | _ => rfl
  | text s =>
    cases b with
    | text t => exact BEq.comm
    | _ => rfl

theorem compare?_swap (a b : Value) : (a.compare? b).map Ordering.swap = b.compare? a := by
  cases a with
  | boolean p => cases b <;> rfl
  | number x =>
    cases b with
    | number y => exact Binary64.compare?_swap x y
    | _ => rfl
  | text s =>
    cases b with
    | text t => rw [compare?, compare?, Option.map_some, ← Std.OrientedOrd.eq_swap]
    | _ => rfl

theorem compare?_eq_none (ha : a ≠ .number .nan) (hb : b ≠ .number .nan) :
    a.compare? b = none ↔ a.kind ≠ b.kind ∨ a.kind = .boolean ∧ b.kind = .boolean := by
  cases a with
  | boolean p => cases b <;> simp [compare?, kind]
  | text s => cases b <;> simp [compare?, kind]
  | number x =>
    cases b with
    | boolean p => simp [compare?, kind]
    | text s => simp [compare?, kind]
    | number y =>
      cases x with
      | nan => exact absurd rfl ha
      | signed m x =>
        cases y with
        | nan => exact absurd rfl hb
        | signed n y => simp [compare?, Binary64.compare?, kind]

theorem equal_self (ha : a ≠ .number .nan) : a.equal a := by
  cases a with
  | boolean p => simp [equal]
  | text s => simp [equal]
  | number x => exact Binary64.equal_self fun h => ha (congrArg number h)

theorem compare?_eq_some {o : Ordering} : a.compare? b = some o ↔
    (∃ m x n y, a = .number (.signed m x) ∧ b = .number (.signed n y) ∧
      compare (Binary64.place m x) (Binary64.place n y) = o) ∨
    ∃ s t, a = .text s ∧ b = .text t ∧ compare s t = o := by
  constructor
  · intro h
    cases a with
    | boolean p => cases b <;> cases h
    | text s =>
      cases b with
      | text t => exact .inr ⟨s, t, rfl, rfl, Option.some.inj h⟩
      | _ => cases h
    | number x =>
      cases b with
      | number y =>
        cases x with
        | nan => cases h
        | signed m x =>
          cases y with
          | nan => cases h
          | signed n y => exact .inl ⟨m, x, n, y, rfl, rfl, Option.some.inj h⟩
      | _ => cases h
  · rintro (⟨m, x, n, y, rfl, rfl, rfl⟩ | ⟨s, t, rfl, rfl, rfl⟩)
    · rfl
    · rfl

theorem equal_iff_of_compare? {o : Ordering} (h : a.compare? b = some o) :
    a.equal b ↔ o = .eq := by
  obtain ⟨m, x, n, y, rfl, rfl, rfl⟩ | ⟨s, t, rfl, rfl, rfl⟩ := compare?_eq_some.mp h
  · simp [equal, Binary64.equal, Binary64.compare?]
  · simp [equal]

theorem compare?_lt_trans {d : Value} (hab : a.compare? b = some .lt)
    (hbd : b.compare? d = some .lt) : a.compare? d = some .lt := by
  obtain ⟨m, x, n, y, rfl, rfl, hxy⟩ | ⟨s, t, rfl, rfl, hst⟩ := compare?_eq_some.mp hab
  · obtain ⟨_, _, k, z, hy, rfl, hyz⟩ | ⟨_, _, hy, -, -⟩ := compare?_eq_some.mp hbd
    · cases hy
      exact congrArg some (Std.TransCmp.lt_trans hxy hyz)
    · cases hy
  · obtain ⟨_, _, _, _, ht, -, -⟩ | ⟨_, u, ht, rfl, htu⟩ := compare?_eq_some.mp hbd
    · cases ht
    · cases ht
      exact congrArg some (Std.TransCmp.lt_trans hst htu)

/- Values that are equal are the same, or numbers in one place. So they are of one kind, and no
comparison and no connective tells them apart. -/

theorem equal_cases (h : a.equal b) :
    a = b ∨ ∃ x y, a = .number x ∧ b = .number y ∧ x.equal y := by
  cases a with
  | boolean p =>
    cases b with
    | boolean q => exact .inl (congrArg boolean (beq_iff_eq.mp h))
    | _ => cases h
  | number x =>
    cases b with
    | number y => exact .inr ⟨x, y, rfl, rfl, h⟩
    | _ => cases h
  | text s =>
    cases b with
    | text t => exact .inl (congrArg text (beq_iff_eq.mp h))
    | _ => cases h

theorem kind_congr (h : a.equal b) : a.kind = b.kind := by
  obtain rfl | ⟨x, y, rfl, rfl, -⟩ := equal_cases h
  · rfl
  · rfl

theorem isTrue_congr (h : a.equal b) : a.isTrue = b.isTrue := by
  obtain rfl | ⟨x, y, rfl, rfl, hxy⟩ := equal_cases h
  · rfl
  · rw [isTrue, isTrue, Binary64.isZero, Binary64.isZero, Binary64.equal_congr hxy]

theorem equal_congr (h : a.equal b) (d : Value) : a.equal d = b.equal d := by
  obtain rfl | ⟨x, y, rfl, rfl, hxy⟩ := equal_cases h
  · rfl
  · cases d with
    | number z => exact Binary64.equal_congr hxy z
    | _ => rfl

theorem compare?_congr (h : a.equal b) (d : Value) : a.compare? d = b.compare? d := by
  obtain rfl | ⟨x, y, rfl, rfl, hxy⟩ := equal_cases h
  · rfl
  · cases d with
    | number z => exact Binary64.compare?_congr hxy z
    | _ => rfl

end Value
end Rulebook
