import Mathlib.Data.List.Forall2
import Mathlib.Data.List.Nodup
import Rulebook.Proofs.Outcome
import Rulebook.Proofs.Tree.FirstFault

/-! Traces. A value or a fault is the same with lines and without them. There is one line for each
node of the tree, and it tells where the node stands and how it got its value. -/

namespace Rulebook

inductive Side where
  | left
  | right
  deriving DecidableEq, Repr

def Side.suffix : Side → String
  | .left => ".left"
  | .right => ".right"

def Side.extend (side : Side) (x : List Side × Tree) : List Side × Tree := (side :: x.1, x.2)

namespace Tree

def at? : Tree → List Side → Option Tree
  | t, [] => some t
  | operand _, _ :: _ => none
  | node _ l _, .left :: p => l.at? p
  | node _ _ r, .right :: p => r.at? p

/-- The nodes of a tree with their paths, each after the nodes of its left side and those of its
right side. -/
def sites : Tree → List (List Side × Tree)
  | operand s => [([], operand s)]
  | node op l r =>
    l.sites.map (Side.extend .left) ++ r.sites.map (Side.extend .right) ++ [([], node op l r)]

theorem map_snd_extend (side : Side) (xs : List (List Side × Tree)) :
    (xs.map side.extend).map Prod.snd = xs.map Prod.snd := List.map_map

theorem map_fst_extend (side : Side) (xs : List (List Side × Tree)) :
    (xs.map side.extend).map Prod.fst = (xs.map Prod.fst).map (side :: ·) := by
  rw [List.map_map, List.map_map]
  rfl

theorem map_snd_sites (t : Tree) : t.sites.map Prod.snd = t.postorder := by
  induction t with
  | operand s => rfl
  | node op l r ihl ihr =>
    simp only [sites, postorder, List.map_append, map_snd_extend, ihl, ihr, List.map_singleton]

theorem mem_sites {t u : Tree} {p : List Side} : (p, u) ∈ t.sites ↔ t.at? p = some u := by
  induction t generalizing p with
  | operand s => cases p <;> simp [sites, at?, eq_comm]
  | node op l r ihl ihr =>
    cases p with
    | nil => simp [sites, Side.extend, at?, eq_comm]
    | cons side p => cases side <;> simp [sites, Side.extend, at?, ← ihl, ← ihr]

theorem nodup_paths (t : Tree) : (t.sites.map Prod.fst).Nodup := by
  induction t with
  | operand s => simp [sites]
  | node op l r ihl ihr =>
    have hleft := ihl.map (List.cons_injective (a := Side.left))
    have hright := ihr.map (List.cons_injective (a := Side.right))
    simp only [sites, List.map_append, map_fst_extend, List.map_singleton]
    refine (hleft.append hright ?_).append (List.nodup_singleton []) ?_
    · rw [List.disjoint_left]
      intro p hp hq
      obtain ⟨q, -, rfl⟩ := List.mem_map.mp hp
      simp at hq
    · simp [List.disjoint_singleton]

end Tree

namespace Trace

def place (start : String) (p : List Side) : String :=
  p.foldl (fun s side => s ++ side.suffix) start

/-- What a line tells of a node under a context: its place, its literal or the values of its two
sides around its symbol, and the value that the node has by itself. -/
inductive Line (c : Context) (start : String) : List Side × Tree → String → Prop
  | operand (p : List Side) (s : String) (v : Value) (hv : (Tree.operand s).evaluate c = .ok v) :
    Line c start (p, .operand s) (place start p ++ ": " ++ s ++ " => " ++ v.display)
  | node (p : List Side) (op : Operator) (l r : Tree) (a b v : Value)
      (ha : l.evaluate c = .ok a) (hb : r.evaluate c = .ok b)
      (hv : (Tree.node op l r).evaluate c = .ok v) :
    Line c start (p, .node op l r) (place start p ++ ": " ++ a.display ++ " " ++ op.symbol ++ " " ++
      b.display ++ " => " ++ v.display)

theorem Line.down {c : Context} {start line : String} {x : List Side × Tree} (side : Side)
    (h : Line c (start ++ side.suffix) x line) : Line c start (side.extend x) line := by
  cases h with
  | operand p s v hv => exact .operand (side :: p) s v hv
  | node p op l r a b v ha hb hv => exact .node (side :: p) op l r a b v ha hb hv

end Trace

namespace Tree

theorem verdictAt_operand {c : Context} {tracing : Bool} {path s : String} {w : Verdict} :
    (operand s).verdictAt c tracing path = .ok w ↔
      ∃ v, c.resolve s = .ok v ∧
        ⟨v, if tracing then [Trace.operandLine path s v] else []⟩ = w := by
  rw [verdictAt, bind_eq_ok]
  simp only [pure, Except.pure, Except.ok.injEq]

theorem verdictAt_node {c : Context} {tracing : Bool} {path : String} {op : Operator} {l r : Tree}
    {w : Verdict} :
    (node op l r).verdictAt c tracing path = .ok w ↔
      ∃ a, l.verdictAt c tracing (path ++ ".left") = .ok a ∧
        ∃ b, r.verdictAt c tracing (path ++ ".right") = .ok b ∧
          ∃ v, op.apply a.value b.value = .ok v ∧
            ⟨v, a.trace ++ b.trace ++
              if tracing then [Trace.nodeLine path op a.value b.value v] else []⟩ = w := by
  rw [verdictAt]
  simp only [bind_eq_ok, pure, Except.pure, Except.ok.injEq]

theorem map_value_verdictAt (c : Context) (tracing : Bool) (path : String) (t : Tree) :
    (t.verdictAt c tracing path).map Verdict.value = t.evaluate c := by
  induction t generalizing path with
  | operand s =>
    rw [verdictAt, evaluate]
    cases c.resolve s with
    | error f => rfl
    | ok v => rfl
  | node op l r ihl ihr =>
    rw [verdictAt, evaluate, ← ihl (path ++ ".left"), ← ihr (path ++ ".right")]
    cases l.verdictAt c tracing (path ++ ".left") with
    | error f => rfl
    | ok a =>
      cases r.verdictAt c tracing (path ++ ".right") with
      | error f => rfl
      | ok b =>
        simp only [Except.map, bind, Except.bind]
        cases op.apply a.value b.value with
        | error f => rfl
        | ok v => rfl

theorem evaluate_of_verdictAt {c : Context} {tracing : Bool} {path : String} {t : Tree}
    {w : Verdict} (h : t.verdictAt c tracing path = .ok w) : t.evaluate c = .ok w.value := by
  rw [← map_value_verdictAt c tracing path, h]
  rfl

theorem trace_of_quiet {c : Context} {path : String} {t : Tree} {w : Verdict}
    (h : t.verdictAt c false path = .ok w) : w.trace = [] := by
  induction t generalizing path w with
  | operand s =>
    obtain ⟨v, -, rfl⟩ := verdictAt_operand.mp h
    rfl
  | node op l r ihl ihr =>
    obtain ⟨a, ha, b, hb, v, -, rfl⟩ := verdictAt_node.mp h
    simp [ihl ha, ihr hb]

theorem trace_lines {c : Context} {path : String} {t : Tree} {w : Verdict}
    (h : t.verdictAt c true path = .ok w) : List.Forall₂ (Trace.Line c path) t.sites w.trace := by
  induction t generalizing path w with
  | operand s =>
    obtain ⟨v, hv, rfl⟩ := verdictAt_operand.mp h
    exact .cons (.operand [] s v hv) .nil
  | node op l r ihl ihr =>
    have hvalue := evaluate_of_verdictAt h
    obtain ⟨a, ha, b, hb, v, -, rfl⟩ := verdictAt_node.mp h
    have hleft := (ihl ha).imp fun x line => Trace.Line.down .left
    have hright := (ihr hb).imp fun x line => Trace.Line.down .right
    have hroot : Trace.Line c path ([], node op l r) (Trace.nodeLine path op a.value b.value v) :=
      .node [] op l r _ _ v (evaluate_of_verdictAt ha) (evaluate_of_verdictAt hb) hvalue
    exact List.rel_append (List.rel_append (List.forall₂_map_left_iff.mpr hleft)
      (List.forall₂_map_left_iff.mpr hright)) (.cons hroot .nil)

end Tree
end Rulebook
