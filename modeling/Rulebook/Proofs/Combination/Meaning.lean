import Rulebook.Proofs.Combination.Kept
import Rulebook.Proofs.RuleText.Meaning

/-! What a combination means, whatever shape its tree has: the answers of the rules it joins are
collected in their order. Under an ordering operator nothing can be collected, since two booleans
have no order. -/

namespace Rulebook.Combination
open Answer

theorem Kept.map_evaluate_trees {rules texts : List String} (h : Kept rules texts) (c : Context) :
    (trees rules).map (Tree.evaluate c) = texts.map (RuleText.answer c) := by
  have h := congrArg (List.map (· >>= Tree.evaluate c)) h.trees_eq
  rwa [List.map_map, List.map_map] at h

theorem isBoolean_of_mem_trees (c : Context) {rules : List String} {t : Tree}
    (h : t ∈ trees rules) : IsBoolean (t.evaluate c) := by
  obtain ⟨s, hread⟩ := mem_trees h
  have hanswer : RuleText.answer c s = t.evaluate c := by
    rw [RuleText.answer, hread]
    rfl
  exact hanswer ▸ RuleText.isBoolean_answer c s

theorem balanced_shape {op : Operator} {ts : List Tree} {t : Tree} (h : balanced op ts = .ok t) :
    ts = [t] ∨ 2 ≤ ts.length ∧ ∃ l r, t = .node op l r := by
  match ts with
  | [] => simp [balanced] at h
  | [u] =>
    simp only [balanced, Except.ok.injEq] at h
    exact .inl (by rw [h])
  | a :: b :: r =>
    obtain ⟨ls, rs, -, -, hjoin⟩ := balanced_split op (a :: b :: r) (by simp)
    rw [hjoin] at h
    obtain ⟨left, right, -, -, rfl⟩ := RuleText.join_eq_ok h
    exact .inr ⟨by simp, left, right, rfl⟩

variable {op : Operator} {ts : List Tree} {t : Tree}

theorem balanced_fails (c : Context) (h : balanced op ts = .ok t)
    (hfault : ∃ u ∈ ts, ∃ f, u.evaluate c = .error f) : ∃ f, t.evaluate c = .error f := by
  refine balanced_induction
    (motive := fun ts t => (∃ u ∈ ts, ∃ f, u.evaluate c = .error f) → ∃ f, t.evaluate c = .error f)
    ts t h (fun u hu => ?_) (fun ls rs l r hl hr hu => ?_) hfault
  · obtain ⟨v, hv, f, hf⟩ := hu
    rw [List.mem_singleton.mp hv] at hf
    exact ⟨f, hf⟩
  · obtain ⟨u, hu, f, hf⟩ := hu
    rw [RuleText.evaluate_node]
    cases hlc : l.evaluate c with
    | error g => exact ⟨g, rfl⟩
    | ok a =>
      rcases List.mem_append.mp hu with hu | hu
      · obtain ⟨g, hg⟩ := hl ⟨u, hu, f, hf⟩
        rw [hlc] at hg
        cases hg
      · obtain ⟨g, hg⟩ := hr ⟨u, hu, f, hf⟩
        rw [hg]
        exact ⟨g, rfl⟩

theorem balanced_collect (c : Context) (hop : op.isOrdering = false) (h : balanced op ts = .ok t)
    (hb : ∀ u ∈ ts, IsBoolean (u.evaluate c)) :
    t.evaluate c = collect op (ts.map (Tree.evaluate c)) := by
  refine balanced_induction
    (motive := fun ts t => (∀ u ∈ ts, IsBoolean (u.evaluate c)) →
      t.evaluate c = collect op (ts.map (Tree.evaluate c)))
    ts t h (fun u hu => ?_) (fun ls rs l r hl hr hu => ?_) hb
  · exact (collect_singleton op hop _ (hu u (by simp))).symm
  · have hleft := hl fun u hm => hu u (List.mem_append_left rs hm)
    have hright := hr fun u hm => hu u (List.mem_append_right ls hm)
    rw [RuleText.evaluate_node, hleft, hright, List.map_append, collect_append op hop]

/- A connective takes any value as true or false, so the values need not be booleans. A single one
is not made a boolean, though, and so it is collected once more on the left. -/
theorem balanced_collect_truth (c : Context) (hop : op.isConnective)
    (h : balanced op ts = .ok t) :
    collect op [t.evaluate c] = collect op (ts.map (Tree.evaluate c)) := by
  have hordering := Operator.isOrdering_of_isConnective hop
  refine balanced_induction
    (motive := fun ts t => collect op [t.evaluate c] = collect op (ts.map (Tree.evaluate c)))
    ts t h (fun u => rfl) (fun ls rs l r hl hr => ?_)
  have hpair : apply op (l.evaluate c) (r.evaluate c) =
      apply op (collect op [l.evaluate c]) (collect op [r.evaluate c]) :=
    apply_collect op hop _ _
  calc collect op [apply op (l.evaluate c) (r.evaluate c)]
      = apply op (l.evaluate c) (r.evaluate c) :=
        collect_singleton op hordering _ (isBoolean_apply op _ _)
    _ = apply op (collect op (ls.map (Tree.evaluate c)))
          (collect op (rs.map (Tree.evaluate c))) := by
        rw [hpair, hl, hr]
    _ = collect op ((ls ++ rs).map (Tree.evaluate c)) := by
        rw [List.map_append, collect_append op hordering]

theorem balanced_ordering (c : Context) (hop : op.isOrdering) (h : balanced op ts = .ok t)
    (hb : ∀ u ∈ ts, ∃ b, u.evaluate c = .ok (.boolean b)) :
    ts = [t] ∨ t.evaluate c = .error (.mismatch op .boolean .boolean) := by
  refine balanced_induction
    (motive := fun ts t => (∀ u ∈ ts, ∃ b, u.evaluate c = .ok (.boolean b)) →
      ts = [t] ∨ t.evaluate c = .error (.mismatch op .boolean .boolean))
    ts t h (fun u _ => .inl rfl) (fun ls rs l r hl hr hu => .inr ?_) hb
  have hleft (u : Tree) (hm : u ∈ ls) := hu u (List.mem_append_left rs hm)
  have hright (u : Tree) (hm : u ∈ rs) := hu u (List.mem_append_right ls hm)
  rw [RuleText.evaluate_node]
  rcases hl hleft with rfl | hl
  · obtain ⟨a, ha⟩ := hleft l (by simp)
    rw [ha]
    rcases hr hright with rfl | hr
    · obtain ⟨b, hb⟩ := hright r (by simp)
      rw [hb]
      cases op with
      | lt | le | gt | ge => rfl
      | _ => cases hop
    · rw [hr]
      rfl
  · rw [hl]
    rfl

/-- What an operator makes of the answers of the rules it joins. Ordering operators do not tell
which of several faults comes first. -/
structure Collected (op : Operator) (rs : List Answer) (r : Answer) : Prop where
  fails : ∀ f, rs.findSome? fault? = some f → ∃ g, r = .error g
  first : ∀ f, rs.findSome? fault? = some f → op.isOrdering = false ∨ rs.length = 1 → r = .error f
  single : ∀ s, rs = [s] → r = s
  many : rs.findSome? fault? = none → 2 ≤ rs.length →
    r = if op.isOrdering then .error (.mismatch op .boolean .boolean)
      else .ok (.boolean (op.gather (rs.map holds)))

theorem Collected.of_eq {rs : List Answer} {r : Answer} (hop : op.isOrdering = false)
    (hsingle : ∀ s, rs = [s] → r = s) (hr : r = collect op rs) : Collected op rs r where
  fails f hf := ⟨f, by rw [hr, collect_of_fault hf]⟩
  first f hf _ := by rw [hr, collect_of_fault hf]
  single := hsingle
  many hn _ := by rw [hr, collect_of_none hn, hop, if_neg Bool.false_ne_true]

theorem balanced_single (c : Context) (h : balanced op ts = .ok t) (s : Answer)
    (hs : ts.map (Tree.evaluate c) = [s]) : t.evaluate c = s := by
  rcases balanced_shape h with rfl | ⟨hlen, -⟩
  · simpa using hs
  · have := congrArg List.length hs
    simp only [List.length_map, List.length_singleton] at this
    omega

theorem balanced_collected (c : Context) (h : balanced op ts = .ok t)
    (hb : ∀ u ∈ ts, IsBoolean (u.evaluate c)) :
    Collected op (ts.map (Tree.evaluate c)) (t.evaluate c) := by
  cases hop : op.isOrdering with
  | false => exact .of_eq hop (balanced_single c h) (balanced_collect c hop h hb)
  | true =>
    refine ⟨fun f hf => ?_, fun f hf hone => ?_, balanced_single c h, fun hn hlen => ?_⟩
    · obtain ⟨r, hr, hrf⟩ := List.exists_of_findSome?_eq_some hf
      obtain ⟨u, hu, rfl⟩ := List.mem_map.mp hr
      exact balanced_fails c h ⟨u, hu, f, fault?_eq_some.mp hrf⟩
    · rcases hone with hone | hone
      · rw [hop] at hone
        cases hone
      · obtain ⟨s, hs⟩ := List.length_eq_one_iff.mp hone
        rw [hs, List.findSome?_singleton] at hf
        rw [balanced_single c h s hs, fault?_eq_some.mp hf]
    · have hvalue (u : Tree) (hu : u ∈ ts) : ∃ b, u.evaluate c = .ok (.boolean b) := by
        have hnone := List.findSome?_eq_none_iff.mp hn _ (List.mem_map_of_mem hu)
        obtain ⟨v, hv⟩ := fault?_eq_none.mp hnone
        obtain ⟨b, rfl⟩ := hb u hu v hv
        exact ⟨b, hv⟩
      rcases balanced_ordering c hop h hvalue with rfl | hr
      · simp at hlen
      · rw [hr, if_pos hop]

/-- Combined rules answer like the texts that are kept of them, whatever shape the combination has.
A connective collects arbitrary trees in the same way. -/
theorem combination_collected (op : Operator) (c : Context) :
    (∀ rules t, combine op rules = .ok t → ∃ texts, Kept rules texts ∧
      (∀ r ∈ texts.map (RuleText.answer c), r.IsBoolean) ∧
      Collected op (texts.map (RuleText.answer c)) (t.evaluate c)) ∧
    (op.isConnective → ∀ ts : List Tree, 2 ≤ ts.length →
      ∃ t, balanced op ts = .ok t ∧ Collected op (ts.map (Tree.evaluate c)) (t.evaluate c)) := by
  constructor
  · intro rules t h
    have hkept := kept_readable rules
    refine ⟨_, hkept, fun r hr => ?_, ?_⟩
    · obtain ⟨s, -, rfl⟩ := List.mem_map.mp hr
      exact RuleText.isBoolean_answer c s
    · rw [← hkept.map_evaluate_trees]
      exact balanced_collected c h fun u hu => isBoolean_of_mem_trees c hu
  · intro hop ts hlen
    obtain ⟨t, ht⟩ := balanced_isOk op ts (by rintro rfl; simp at hlen)
    refine ⟨t, ht, .of_eq (Operator.isOrdering_of_isConnective hop) (balanced_single c ht) ?_⟩
    rw [← balanced_collect_truth c hop ht]
    rcases balanced_shape ht with rfl | ⟨-, l, r, rfl⟩
    · simp at hlen
    · exact (collect_singleton op (Operator.isOrdering_of_isConnective hop) _
        (isBoolean_apply op _ _)).symm

/-- Four rules are true, so that under `!=` they are false together, though each is true alone. A
copy of the first one would make them true again, and it does not count, nor does the text that is
no rule. Trees that are joined need not be rules: a text and a number are true or false as well. -/
theorem combination_collected_mixed :
    (∃ t, combine .ne ["a=1", "nonsense", "a=2 OR b>2", "a=1", "b!='x'", "a<=1"] = .ok t ∧
      t.evaluate (.ofList [("a", .number (.ofInt 1)), ("b", .number (.ofInt 3))]) =
        .ok (.boolean false)) ∧
    ∃ t, balanced .or [.operand "''", .operand "0", .operand "'x'"] = .ok t ∧
      t.evaluate .empty = .ok (.boolean true) := by
  constructor
  · have h : combine .ne ["a=1", "nonsense", "a=2 OR b>2", "a=1", "b!='x'", "a<=1"] = .ok
        (.node .ne
          (.node .ne (.node .eq (.operand "a") (.operand "1"))
            (.node .or (.node .eq (.operand "a") (.operand "2"))
              (.node .gt (.operand "b") (.operand "2"))))
          (.node .ne (.node .ne (.operand "b") (.operand "'x'"))
            (.node .le (.operand "a") (.operand "1")))) := by decide +kernel
    obtain ⟨texts, hkept, -, hcollected⟩ := (combination_collected .ne
      (.ofList [("a", .number (.ofInt 1)), ("b", .number (.ofInt 3))])).1 _ _ h
    obtain rfl : readable ["a=1", "nonsense", "a=2 OR b>2", "a=1", "b!='x'", "a<=1"] = texts :=
      kept_iff.mp hkept
    have hvalue := hcollected.many (by decide +kernel) (by decide +kernel)
    exact ⟨_, h, hvalue.trans (by decide +kernel)⟩
  · obtain ⟨t, ht, hcollected⟩ := (combination_collected .or .empty).2 rfl
      [.operand "''", .operand "0", .operand "'x'"] (by decide)
    exact ⟨t, ht, (hcollected.many (by decide +kernel) (by decide)).trans (by decide +kernel)⟩

end Rulebook.Combination
