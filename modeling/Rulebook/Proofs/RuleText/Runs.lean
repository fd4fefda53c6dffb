import Mathlib.Data.List.TakeWhile
import Rulebook.Proofs.RuleText.Normal

/-! Runs: stretches of a text whose characters are all of one kind, as long as they can be. A
normal text is the runs of its characters that are no blanks, with single spaces between them. -/

namespace Rulebook.RuleText
open Text
variable {p : Char → Bool} {cs a w b : List Char}

/-- A stretch of one kind between two texts, neither of which carries it on. -/
structure IsRun (p : Char → Bool) (a w b : List Char) : Prop where
  inside : ∀ c ∈ w, p c
  left : ∀ c ∈ a.getLast?, ¬ p c
  right : ∀ c ∈ b.head?, ¬ p c

def runs (p : Char → Bool) (cs : List Char) : List (List Char) :=
  (cs.splitOnP fun c => !p c).filter (· ≠ [])

theorem isRun_of_mem_splitOnP (h : w ∈ cs.splitOnP fun c => !p c) :
    ∃ a b, cs = a ++ w ++ b ∧ IsRun p a w b := by
  -- The first piece ends at the first separator; all others are pieces of what follows it.
  induction hn : cs.length using Nat.strong_induction_on generalizing cs with
  | _ n ih =>
    have hcs := List.takeWhile_append_dropWhile (p := p) (l := cs)
    have hfirst : ∀ c ∈ cs.takeWhile p, (!p c) = false := by
      intro c hc
      simp [List.mem_takeWhile_imp hc]
    cases hd : cs.dropWhile p with
    | nil =>
      rw [hd, List.append_nil] at hcs
      rw [hcs] at hfirst
      rw [List.splitOnP_eq_singleton hfirst, List.mem_singleton] at h
      subst h
      exact ⟨[], [], by simp, fun c hc => by simpa using hfirst c hc, by simp, by simp⟩
    | cons x r =>
      have hx : ¬ p x := by
        have := List.head?_dropWhile_not p cs
        simpa [hd] using this
      rw [hd] at hcs
      rw [← hcs, List.splitOnP_append_cons_of_forall_mem hfirst x (by simp [hx])] at h
      rcases List.mem_cons.mp h with rfl | h
      · refine ⟨[], x :: r, by simpa using hcs.symm, fun c hc => List.mem_takeWhile_imp hc,
          by simp, ?_⟩
        simpa using hx
      · have hlen : r.length < n := by
          rw [← hn, ← hcs, List.length_append, List.length_cons]
          omega
        obtain ⟨a, b, hr, hrun⟩ := ih r.length hlen h rfl
        refine ⟨cs.takeWhile p ++ x :: a, b, ?_, hrun.inside, ?_, hrun.right⟩
        · rw [List.append_assoc, List.append_assoc, List.cons_append, ← List.append_assoc a, ← hr,
            hcs]
        · intro c hc
          rw [List.getLast?_append_of_ne_nil _ (by simp), List.getLast?_cons] at hc
          cases hl : a.getLast? with
          | none => simpa [hl, ← Option.some.inj hc] using hx
          | some y => exact hrun.left c (by simpa [hl] using hc)

theorem mem_splitOnP_of_isRun (h : IsRun p a w b) : w ∈ (a ++ w ++ b).splitOnP fun c => !p c := by
  have hw : w.splitOnP (fun c => !p c) = [w] :=
    List.splitOnP_eq_singleton fun c hc => by simp [h.inside c hc]
  have hcut (u v : List Char) {x : Char} (hx : ¬ p x) : (u ++ x :: v).splitOnP (fun c => !p c) =
      u.splitOnP (fun c => !p c) ++ v.splitOnP fun c => !p c :=
    List.splitOnP_append_cons u v (p := fun c => !p c) (by simp [hx])
  have hright : w ∈ (w ++ b).splitOnP fun c => !p c := by
    cases b with
    | nil => simp [hw]
    | cons y b => simp [hcut w b (h.right y rfl), hw]
  cases hl : a.getLast? with
  | none => simpa [List.getLast?_eq_none_iff.mp hl] using hright
  | some x =>
    obtain ⟨u, rfl⟩ := List.getLast?_eq_some_iff.mp hl
    have htext : u ++ [x] ++ w ++ b = u ++ x :: (w ++ b) := by simp
    rw [htext, hcut u _ (h.left x hl)]
    exact List.mem_append_right _ hright

theorem mem_runs_iff : w ∈ runs p cs ↔ w ≠ [] ∧ ∃ a b, cs = a ++ w ++ b ∧ IsRun p a w b := by
  rw [runs, List.mem_filter, decide_eq_true_iff, and_comm]
  refine and_congr_right fun _ => ⟨isRun_of_mem_splitOnP, ?_⟩
  rintro ⟨a, b, rfl, h⟩
  exact mem_splitOnP_of_isRun h

def visibleRuns (cs : List Char) : List (List Char) := runs (fun c => !isBlank c) cs

theorem visibleRuns_eq (cs : List Char) :
    visibleRuns cs = (cs.splitOnP isBlank).filter (· ≠ []) := by
  simp only [visibleRuns, runs, Bool.not_not]

/- Of a text that follows no blank, the first piece is written as it stands, even if it is empty.
Before every other piece one space is written, unless the piece is empty. -/
theorem squeeze_splitOnP {u : List Char} {us : List (List Char)}
    (h : cs.splitOnP isBlank = u :: us) :
    squeeze false cs = u ++ (us.filter (· ≠ [])).flatMap (' ' :: ·) ∧
      squeeze true cs = ((u :: us).filter (· ≠ [])).flatMap (' ' :: ·) := by
  induction cs generalizing u us with
  | nil =>
    obtain ⟨rfl, rfl⟩ := List.cons.inj h
    exact ⟨rfl, rfl⟩
  | cons c r ih =>
    obtain ⟨v, vs, hr⟩ := List.exists_cons_of_ne_nil (List.splitOnP_ne_nil isBlank r)
    obtain ⟨hfalse, htrue⟩ := ih hr
    rw [List.splitOnP_cons_eq_if_modifyHead, hr] at h
    by_cases hc : isBlank c
    · rw [if_pos hc] at h
      obtain ⟨rfl, rfl⟩ := List.cons.inj h
      rw [squeeze, squeeze, if_pos hc, if_pos hc, htrue]
      simp
    · rw [if_neg hc] at h
      obtain ⟨rfl, rfl⟩ := List.cons.inj h
      rw [squeeze, squeeze, if_neg hc, if_neg hc, hfalse]
      simp

theorem intercalate_cons (w : List Char) (ws : List (List Char)) :
    [' '].intercalate (w :: ws) = w ++ ws.flatMap (' ' :: ·) := by
  induction ws generalizing w with
  | nil => simp
  | cons v ws ih => rw [List.intercalate_cons_cons, ih]; simp

theorem visibleRuns_cons_blank {c : Char} (hc : isBlank c) (r : List Char) :
    visibleRuns (c :: r) = visibleRuns r := by
  rw [visibleRuns_eq, visibleRuns_eq, List.splitOnP_cons_eq_if_modifyHead, if_pos hc]
  rfl

theorem normalChars_eq_intercalate (cs : List Char) :
    normalChars cs = [' '].intercalate (visibleRuns cs) := by
  induction cs with
  | nil => rfl
  | cons c r ih =>
    by_cases hc : isBlank c
    · rw [visibleRuns_cons_blank hc, ← ih, normalChars, normalChars, List.dropWhile_cons_of_pos hc]
    · obtain ⟨v, vs, hr⟩ := List.exists_cons_of_ne_nil (List.splitOnP_ne_nil isBlank r)
      have hcs : (c :: r).splitOnP isBlank = (c :: v) :: vs := by
        rw [List.splitOnP_cons_eq_if_modifyHead, if_neg hc, hr]
        rfl
      rw [normalChars, List.dropWhile_cons_of_neg hc, (squeeze_splitOnP hcs).1, visibleRuns_eq, hcs,
        List.filter_cons_of_pos (by simp), intercalate_cons]

theorem normalize_eq_intercalate (s : String) :
    normalize s = " ".intercalate ((visibleRuns s.toList).map String.ofList) := by
  apply String.toList_injective
  have hlists : ((visibleRuns s.toList).map String.ofList).map String.toList =
      visibleRuns s.toList := by simp [Function.comp_def]
  rw [normalize, normalChars_eq_intercalate, String.toList_ofList, String.toList_intercalate,
    hlists]
  rfl

end Rulebook.RuleText
