import Mathlib.Data.Nat.Log
import Rulebook.Proofs.Combination

/-! The shape of a combination: its joints, and the trees that hang from them. Halving a list again
and again leaves every tree under as many joints as the logarithm of their number tells. -/

namespace Rulebook.Combination

/-- The joints of a combination, apart from the trees that it joins. These may be nodes of the
same operator, so the joints cannot be told from the combination alone. -/
inductive Frame where
  | single (t : Tree)
  | joint (left right : Frame)

namespace Frame

def tree (op : Operator) : Frame → Tree
  | single t => t
  | joint l r => .node op (l.tree op) (r.tree op)

def joints : Frame → Nat
  | single _ => 0
  | joint l r => l.joints + r.joints + 1

/-- The joined trees from left to right, each with the number of joints above it. -/
def hanging : Frame → List (Nat × Tree)
  | single t => [(0, t)]
  | joint l r => (l.hanging ++ r.hanging).map fun (d, t) => (d + 1, t)

def trees (f : Frame) : List Tree := f.hanging.map Prod.snd

/-- At every joint the right side has as many trees as the left one, or one more. -/
def IsHalved : Frame → Prop
  | single _ => True
  | joint l r =>
    (r.trees.length = l.trees.length ∨ r.trees.length = l.trees.length + 1) ∧
      l.IsHalved ∧ r.IsHalved

theorem trees_joint (l r : Frame) : (joint l r).trees = l.trees ++ r.trees := by
  simp [trees, hanging, Function.comp_def]

theorem joints_succ (f : Frame) : f.joints + 1 = f.trees.length := by
  induction f with
  | single t => rfl
  | joint l r ihl ihr =>
    rw [trees_joint, List.length_append, ← ihl, ← ihr, joints]
    omega

theorem mem_hanging_joint {l r : Frame} {d : Nat} {t : Tree} :
    (d, t) ∈ (joint l r).hanging ↔ ∃ e, d = e + 1 ∧ ((e, t) ∈ l.hanging ∨ (e, t) ∈ r.hanging) := by
  rw [hanging, List.mem_map]
  constructor
  · rintro ⟨⟨e, u⟩, hmem, heq⟩
    cases heq
    exact ⟨e, rfl, List.mem_append.mp hmem⟩
  · rintro ⟨e, rfl, hmem⟩
    exact ⟨(e, t), List.mem_append.mpr hmem, rfl⟩

theorem log_halves {a b : Nat} (hpos : 0 < a) (h : b = a ∨ b = a + 1) :
    Nat.log 2 (a + b) = Nat.log 2 a + 1 ∧ Nat.clog 2 (a + b) = Nat.clog 2 b + 1 := by
  have hlow : (a + b) / 2 = a := by omega
  have hhigh : (a + b + 2 - 1) / 2 = b := by omega
  constructor
  · rw [Nat.log_of_one_lt_of_le Nat.one_lt_two (by omega), hlow]
  · rw [Nat.clog_of_two_le Nat.one_lt_two (by omega), hhigh]

theorem IsHalved.log_le {f : Frame} (h : f.IsHalved) {d : Nat} {t : Tree}
    (hmem : (d, t) ∈ f.hanging) :
    Nat.log 2 f.trees.length ≤ d ∧ d ≤ Nat.clog 2 f.trees.length := by
  induction f generalizing d with
  | single u =>
    have hd : d = 0 := congrArg Prod.fst (List.mem_singleton.mp hmem)
    simp [hd, trees, hanging]
  | joint l r ihl ihr =>
    obtain ⟨hsize, hl, hr⟩ := h
    obtain ⟨e, rfl, hside⟩ := mem_hanging_joint.mp hmem
    obtain ⟨hlog, hclog⟩ := log_halves (l.joints_succ ▸ Nat.succ_pos _) hsize
    rw [trees_joint, List.length_append, hlog, hclog]
    have hle : l.trees.length ≤ r.trees.length := by omega
    rcases hside with hside | hside
    · have hclogs := Nat.clog_mono_right 2 hle
      have := ihl hl hside
      omega
    · have hlogs := Nat.log_mono_right (b := 2) hle
      have := ihr hr hside
      omega

theorem clog_le_log_succ (n : Nat) : Nat.clog 2 n ≤ Nat.log 2 n + 1 :=
  Nat.clog_le_of_le_pow (Nat.lt_pow_succ_log_self Nat.one_lt_two n).le

theorem IsHalved.depth_cases {f : Frame} (h : f.IsHalved) {d : Nat} {t : Tree}
    (hmem : (d, t) ∈ f.hanging) :
    d = Nat.log 2 f.trees.length ∨ d = Nat.clog 2 f.trees.length := by
  obtain ⟨hlow, hhigh⟩ := h.log_le hmem
  have := clog_le_log_succ f.trees.length
  omega

theorem IsHalved.last {f : Frame} (h : f.IsHalved) :
    f.hanging.getLast?.map Prod.fst = some (Nat.clog 2 f.trees.length) := by
  induction f with
  | single t => rfl
  | joint l r ihl ihr =>
    obtain ⟨hsize, -, hr⟩ := h
    obtain ⟨-, hclog⟩ := log_halves (l.joints_succ ▸ Nat.succ_pos _) hsize
    obtain ⟨⟨d, t⟩, hlast, hd⟩ := Option.map_eq_some_iff.mp (ihr hr)
    have hwhole : (l.hanging ++ r.hanging).getLast? = some (d, t) := by
      rw [List.getLast?_append, hlast]
      rfl
    rw [trees_joint, List.length_append, hclog, hanging, List.getLast?_map, hwhole, ← hd]
    rfl

variable (op : Operator) (f : Frame)

theorem le_depth_tree {d : Nat} {t : Tree} (hmem : (d, t) ∈ f.hanging) :
    d + t.depth ≤ (f.tree op).depth := by
  induction f generalizing d with
  | single u =>
    cases List.mem_singleton.mp hmem
    simp [tree]
  | joint l r ihl ihr =>
    obtain ⟨e, rfl, hside⟩ := mem_hanging_joint.mp hmem
    rw [tree, Tree.depth]
    rcases hside with hside | hside
    · have := ihl hside
      omega
    · have := ihr hside
      omega

theorem exists_depth_tree : ∃ d t, (d, t) ∈ f.hanging ∧ (f.tree op).depth = d + t.depth := by
  induction f with
  | single u => exact ⟨0, u, List.mem_singleton.mpr rfl, by simp [tree]⟩
  | joint l r ihl ihr =>
    obtain ⟨d, t, ht, hl⟩ := ihl
    obtain ⟨e, u, hu, hr⟩ := ihr
    rw [tree, Tree.depth, hl, hr]
    by_cases hle : d + t.depth ≤ e + u.depth
    · exact ⟨e + 1, u, mem_hanging_joint.mpr ⟨e, rfl, .inr hu⟩, by omega⟩
    · exact ⟨d + 1, t, mem_hanging_joint.mpr ⟨d, rfl, .inl ht⟩, by omega⟩

variable {f}

theorem mem_trees_of_hanging {d : Nat} {t : Tree} (hmem : (d, t) ∈ f.hanging) : t ∈ f.trees :=
  List.mem_map_of_mem hmem

theorem IsHalved.depth_le (h : f.IsHalved) {k : Nat} (hk : ∀ t ∈ f.trees, t.depth ≤ k) :
    (f.tree op).depth ≤ Nat.clog 2 f.trees.length + k := by
  obtain ⟨d, t, hmem, hd⟩ := f.exists_depth_tree op
  have hclog := (h.log_le hmem).2
  have hdepth := hk t (mem_trees_of_hanging hmem)
  omega

theorem IsHalved.depth_eq (h : f.IsHalved) {k : Nat} (hk : ∀ t ∈ f.trees, t.depth = k) :
    (f.tree op).depth = Nat.clog 2 f.trees.length + k := by
  obtain ⟨⟨d, t⟩, hlast, hd⟩ := Option.map_eq_some_iff.mp h.last
  have hmem := List.mem_of_getLast? hlast
  have hlow := f.le_depth_tree op hmem
  have hhigh := h.depth_le op fun t ht => (hk t ht).le
  have hdepth := hk t (mem_trees_of_hanging hmem)
  have hd : d = Nat.clog 2 f.trees.length := hd
  omega

end Frame

theorem exists_frame (op : Operator) (ts : List Tree) (hne : ts ≠ []) :
    ∃ f : Frame, balanced op ts = .ok (f.tree op) ∧ f.trees = ts ∧ f.IsHalved := by
  have hjoint (ls rs : List Tree) (l r : Tree)
      (hsize : rs.length = ls.length ∨ rs.length = ls.length + 1)
      (hl : ∃ f : Frame, f.tree op = l ∧ f.trees = ls ∧ f.IsHalved)
      (hr : ∃ f : Frame, f.tree op = r ∧ f.trees = rs ∧ f.IsHalved) :
      ∃ f : Frame, f.tree op = .node op l r ∧ f.trees = ls ++ rs ∧ f.IsHalved := by
    obtain ⟨f, rfl, rfl, hf⟩ := hl
    obtain ⟨g, rfl, rfl, hg⟩ := hr
    exact ⟨.joint f g, rfl, f.trees_joint g, hsize, hf, hg⟩
  obtain ⟨t, ht, f, rfl, htrees, hhalved⟩ := balanced_halves op
    (motive := fun ts t => ∃ f : Frame, f.tree op = t ∧ f.trees = ts ∧ f.IsHalved) ts hne
    (fun u => ⟨.single u, rfl, rfl, trivial⟩) hjoint
  exact ⟨f, ht, htrees, hhalved⟩

/-- Only an empty list has no combination. Every other list has one fewer joints than trees, which
hang from them in their order, each at one of the two logarithms of their number and the last at
the larger one. So a combination is deeper than the deepest tree by that logarithm at most, and by
all of it if the trees are equally deep. -/
theorem balanced_frame (op : Operator) (ts : List Tree) :
    (∀ fault, balanced op ts = .error fault ↔ ts = [] ∧ fault = .nothingToCombine) ∧
    (ts ≠ [] → ∃ f : Frame, balanced op ts = .ok (f.tree op) ∧ f.trees = ts ∧
      f.joints + 1 = ts.length ∧ f.IsHalved ∧
      (∀ d t, (d, t) ∈ f.hanging → d = Nat.log 2 ts.length ∨ d = Nat.clog 2 ts.length) ∧
      f.hanging.getLast?.map Prod.fst = some (Nat.clog 2 ts.length) ∧
      (∀ k, (∀ t ∈ ts, t.depth ≤ k) → (f.tree op).depth ≤ Nat.clog 2 ts.length + k) ∧
      ∀ k, (∀ t ∈ ts, t.depth = k) → (f.tree op).depth = Nat.clog 2 ts.length + k) := by
  constructor
  · intro fault
    by_cases hne : ts = []
    · subst hne
      simp [balanced, eq_comm]
    · obtain ⟨t, ht⟩ := balanced_isOk op ts hne
      simp [ht, hne]
  · intro hne
    obtain ⟨f, hf, rfl, hhalved⟩ := exists_frame op ts hne
    exact ⟨f, hf, rfl, f.joints_succ, hhalved, fun d t => hhalved.depth_cases, hhalved.last,
      fun k => hhalved.depth_le op, fun k => hhalved.depth_eq op⟩

theorem balanced_frame_five : ∃ f : Frame,
    balanced .or [.operand "a", .operand "b", .operand "a",
      .node .or (.operand "c") (.operand "d"), .operand "e"] = .ok (f.tree .or) ∧
    f.joints = 4 ∧ f.hanging.getLast?.map Prod.fst = some 3 ∧ (f.tree .or).depth ≤ 4 := by
  obtain ⟨f, hf, -, hjoints, -, -, hlast, hdepth, -⟩ := (balanced_frame .or [.operand "a",
    .operand "b", .operand "a", .node .or (.operand "c") (.operand "d"), .operand "e"]).2 (by simp)
  have hclog : Nat.clog 2 5 = 3 := by decide
  have hle : (f.tree .or).depth ≤ Nat.clog 2 5 + 1 := hdepth 1 (by decide)
  rw [hclog] at hle
  exact ⟨f, hf, Nat.succ.inj hjoints, hlast.trans (congrArg some hclog), hle⟩

end Rulebook.Combination
