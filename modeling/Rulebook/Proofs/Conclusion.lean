import Mathlib.Algebra.Ring.Parity
import Mathlib.Data.List.Basic
import Rulebook.Evaluation

/-! What an operator makes of many results. Under a connective it is their first fault, or else
whether all of them hold, or any of them; equality and inequality count. How the results are
grouped does not matter. -/

namespace Rulebook

namespace Operator

def isOrdering : Operator → Bool
  | .lt | .le | .gt | .ge => true
  | _ => false

/-- The boolean that an operator makes of many. An ordering operator makes none of them. -/
def gather (op : Operator) (bs : List Bool) : Bool :=
  match op with
  | .and => bs.all id
  | .or => bs.any id
  | .eq => decide (Even (bs.count false))
  | .ne => decide (Odd (bs.count true))
  | .lt | .le | .gt | .ge => false

theorem isOrdering_of_isConnective {op : Operator} (hop : op.isConnective) :
    op.isOrdering = false := by
  cases op with
  | and | or => rfl
  | _ => cases hop

theorem gather_singleton (op : Operator) (hop : op.isOrdering = false) (b : Bool) :
    op.gather [b] = b := by
  cases op with
  | and => simp [gather]
  | or => simp [gather]
  | eq => cases b <;> decide
  | ne => cases b <;> decide
  | lt | le | gt | ge => cases hop

/- A sum of two numbers is even just if both are even or both are odd. That is equality of
booleans; its negation counts the other value. -/
theorem apply_gather (op : Operator) (hop : op.isOrdering = false) (bs cs : List Bool) :
    op.apply (.boolean (op.gather bs)) (.boolean (op.gather cs)) =
      .ok (.boolean (op.gather (bs ++ cs))) := by
  cases op with
  | and => simp [apply, gather, Value.isTrue]
  | or => simp [apply, gather, Value.isTrue]
  | eq =>
    have hsum : Even ((bs ++ cs).count false) ↔
        (Even (bs.count false) ↔ Even (cs.count false)) := by
      rw [List.count_append, Nat.even_add]
    simp only [apply, gather, Value.equal, hsum]
    by_cases hb : Even (bs.count false) <;> by_cases hc : Even (cs.count false) <;>
      simp [hb, hc]
  | ne =>
    have hsum : Odd ((bs ++ cs).count true) ↔
        (Odd (bs.count true) ↔ ¬ Odd (cs.count true)) := by
      rw [List.count_append, Nat.odd_add, Nat.not_odd_iff_even]
    simp only [apply, gather, Value.equal, hsum]
    by_cases hb : Odd (bs.count true) <;> by_cases hc : Odd (cs.count true) <;>
      simp [hb, hc]
  | lt | le | gt | ge => cases hop

end Operator

abbrev Answer := Except Fault Value

namespace Answer

def fault? : Answer → Option Fault
  | .ok _ => none
  | .error f => some f

theorem fault?_eq_some {r : Answer} {f : Fault} : r.fault? = some f ↔ r = .error f := by
  cases r <;> simp [fault?]

theorem fault?_eq_none {r : Answer} : r.fault? = none ↔ ∃ v, r = .ok v := by
  cases r <;> simp [fault?]

def holds : Answer → Bool
  | .ok v => v.isTrue
  | .error _ => false

def IsBoolean (r : Answer) : Prop := ∀ v, r = .ok v → ∃ b, v = .boolean b

def apply (op : Operator) (a b : Answer) : Answer := do
  let a ← a
  let b ← b
  op.apply a b

def conclude (op : Operator) (rs : List Answer) : Answer :=
  match rs.findSome? fault? with
  | some f => .error f
  | none => .ok (.boolean (if op = .and then rs.all holds else rs.any holds))

theorem isBoolean_apply (op : Operator) (a b : Answer) : (apply op a b).IsBoolean := by
  intro v hv
  cases a with
  | error f => cases hv
  | ok x =>
    cases b with
    | error f => cases hv
    | ok y =>
      change op.apply x y = .ok v at hv
      cases op with
      | and | or | eq | ne => cases hv; exact ⟨_, rfl⟩
      | lt | le | gt | ge =>
        simp only [Operator.apply] at hv
        split at hv
        · cases hv; exact ⟨_, rfl⟩
        · cases hv

theorem isBoolean_conclude (op : Operator) (rs : List Answer) : (conclude op rs).IsBoolean := by
  intro v hv
  unfold conclude at hv
  split at hv
  · cases hv
  · cases hv; exact ⟨_, rfl⟩

theorem IsBoolean.holds_iff {r : Answer} (h : r.IsBoolean) :
    r.holds ↔ r = .ok (.boolean true) := by
  cases r with
  | error f => simp [holds]
  | ok v =>
    obtain ⟨b, rfl⟩ := h v rfl
    simp [holds, Value.isTrue]

theorem conclude_singleton (op : Operator) (r : Answer) (h : r.IsBoolean) :
    conclude op [r] = r := by
  cases r with
  | error f => rfl
  | ok v =>
    obtain ⟨b, rfl⟩ := h v rfl
    simp [conclude, fault?, holds, Value.isTrue]

theorem fault?_conclude (op : Operator) (rs : List Answer) :
    fault? (conclude op rs) = rs.findSome? fault? := by
  unfold conclude
  split
  · next f h => rw [h]; rfl
  · next h => rw [h]; rfl

theorem holds_conclude (op : Operator) (rs : List Answer) (h : rs.findSome? fault? = none) :
    holds (conclude op rs) = if op = .and then rs.all holds else rs.any holds := by
  simp [conclude, h, holds, Value.isTrue]

def collect (op : Operator) (rs : List Answer) : Answer :=
  match rs.findSome? fault? with
  | some f => .error f
  | none => .ok (.boolean (op.gather (rs.map holds)))

theorem collect_of_fault {op : Operator} {rs : List Answer} {f : Fault}
    (h : rs.findSome? fault? = some f) : collect op rs = .error f := by
  simp [collect, h]

theorem collect_of_none {op : Operator} {rs : List Answer} (h : rs.findSome? fault? = none) :
    collect op rs = .ok (.boolean (op.gather (rs.map holds))) := by
  simp [collect, h]

theorem collect_singleton (op : Operator) (hop : op.isOrdering = false) (r : Answer)
    (h : r.IsBoolean) : collect op [r] = r := by
  cases r with
  | error f => rfl
  | ok v =>
    obtain ⟨b, rfl⟩ := h v rfl
    rw [collect_of_none rfl, List.map_singleton, Operator.gather_singleton op hop]
    rfl

theorem collect_append (op : Operator) (hop : op.isOrdering = false) (rs ss : List Answer) :
    collect op (rs ++ ss) = apply op (collect op rs) (collect op ss) := by
  have happend : (rs ++ ss).findSome? fault? =
      (rs.findSome? fault?).or (ss.findSome? fault?) := List.findSome?_append
  cases hr : rs.findSome? fault? with
  | some f =>
    rw [hr, Option.some_or] at happend
    rw [collect_of_fault happend, collect_of_fault hr]
    rfl
  | none =>
    rw [hr, Option.none_or] at happend
    cases hs : ss.findSome? fault? with
    | some f =>
      rw [hs] at happend
      rw [collect_of_fault happend, collect_of_fault hs, collect_of_none hr]
      rfl
    | none =>
      rw [hs] at happend
      rw [collect_of_none happend, collect_of_none hr, collect_of_none hs, List.map_append]
      exact (op.apply_gather hop _ _).symm

theorem apply_collect (op : Operator) (hop : op.isConnective) (a b : Answer) :
    apply op a b = apply op (collect op [a]) (collect op [b]) := by
  have truth (v : Value) : collect op [.ok v] = .ok (.boolean v.isTrue) := by
    rw [collect_of_none rfl, List.map_singleton,
      op.gather_singleton (Operator.isOrdering_of_isConnective hop)]
    rfl
  cases a with
  | error f => rfl
  | ok v =>
    cases b with
    | error f => rw [truth]; rfl
    | ok w =>
      rw [truth, truth]
      cases op with
      | and | or => rfl
      | _ => cases hop

theorem conclude_eq_collect (op : Operator) (hop : op.isConnective) (rs : List Answer) :
    conclude op rs = collect op rs := by
  have hall : rs.all holds = (rs.map holds).all id := by rw [List.all_map]; rfl
  have hany : rs.any holds = (rs.map holds).any id := by rw [List.any_map]; rfl
  unfold conclude collect
  cases op with
  | and => rw [if_pos rfl, hall]; rfl
  | or => rw [if_neg (by decide), hany]; rfl
  | _ => cases hop

theorem conclude_append (op : Operator) (hop : op.isConnective) (rs ss : List Answer) :
    conclude op (rs ++ ss) = apply op (conclude op rs) (conclude op ss) := by
  have hordering := Operator.isOrdering_of_isConnective hop
  rw [conclude_eq_collect op hop, conclude_eq_collect op hop, conclude_eq_collect op hop,
    collect_append op hordering]

theorem conclude_flatten (op : Operator) (hop : op.isConnective) (rss : List (List Answer)) :
    conclude op rss.flatten = conclude op (rss.map (conclude op)) := by
  induction rss with
  | nil => rfl
  | cons rs rss ih =>
    have hcons : (rs :: rss).map (conclude op) = [conclude op rs] ++ rss.map (conclude op) := rfl
    rw [List.flatten_cons, conclude_append op hop, ih, hcons, conclude_append op hop,
      conclude_singleton op _ (isBoolean_conclude op rs)]

theorem conclude_and_or (rss : List (List Answer)) :
    conclude .and (rss.map (conclude .or)) =
      match rss.flatten.findSome? fault? with
      | some f => .error f
      | none => .ok (.boolean (rss.all fun rs => rs.any holds)) := by
  have hfault : (rss.map (conclude .or)).findSome? fault? = rss.flatten.findSome? fault? := by
    induction rss with
    | nil => rfl
    | cons rs rss ih =>
      rw [List.map_cons, List.findSome?_cons, fault?_conclude, ih, List.flatten_cons,
        List.findSome?_append]
      cases rs.findSome? fault? with
      | some f => rfl
      | none => rfl
  rw [conclude, hfault]
  cases hn : rss.flatten.findSome? fault? with
  | some f => rfl
  | none =>
    have hgroup : ∀ rs ∈ rss, holds (conclude .or rs) = rs.any holds := by
      intro rs hrs
      have hrn : rs.findSome? fault? = none := by
        rw [List.findSome?_eq_none_iff] at hn ⊢
        exact fun r hr => hn r (List.mem_flatten.mpr ⟨rs, hrs, hr⟩)
      simp [holds_conclude .or rs hrn]
    have hall : (rss.map (conclude .or)).all holds = rss.all fun rs => rs.any holds := by
      rw [List.all_map, Bool.eq_iff_iff, List.all_eq_true, List.all_eq_true]
      exact forall₂_congr fun rs hrs => by rw [Function.comp_apply, hgroup rs hrs]
    simp [hall]

end Answer
end Rulebook
