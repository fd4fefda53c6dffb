import Rulebook.Proofs.Setting
import Rulebook.Toml.Document

/-! The tables of a document list their keys in increasing order, however the text mixes them. -/

namespace Rulebook.Toml

namespace Node

inductive Ordered : Node → Prop where
  | leaf {v : Setting} (h : v.Ordered) : Ordered (.leaf v)
  | table {origin : Origin} {es : Entries Node} (increasing : es.Increasing)
      (all : ∀ e ∈ es, Ordered e.2) : Ordered (.table origin es)
  | tables {earlier : List (Entries Node)} {last : Entries Node}
      (increasing : ∀ es ∈ earlier, Entries.Increasing es)
      (all : ∀ es ∈ earlier, ∀ e ∈ es, Ordered e.2)
      (increasingLast : last.Increasing) (allLast : ∀ e ∈ last, Ordered e.2) :
      Ordered (.tables earlier last)

structure Sorted (es : Entries Node) : Prop where
  increasing : es.Increasing
  all : ∀ e ∈ es, Ordered e.2

namespace Sorted
variable {es : Entries Node}

theorem nil : Sorted [] := ⟨List.Pairwise.nil, fun _ h => nomatch h⟩

theorem insert (h : Sorted es) (k : String) {n : Node} (hn : n.Ordered) :
    Sorted (Entries.insert k n es) := by
  refine ⟨h.increasing.insert k n, fun e he => ?_⟩
  rcases Entries.mem_insert he with rfl | he
  · exact hn
  · exact h.all e he

theorem get? (h : Sorted es) {k : String} {n : Node} (hn : Entries.get? k es = some n) :
    n.Ordered :=
  h.all _ (Entries.mem_of_get? hn)

end Sorted

theorem Sorted.table {es : Entries Node} (h : Sorted es) (origin : Origin) :
    (Node.table origin es).Ordered :=
  .table h.increasing h.all

theorem Ordered.members {origin : Origin} {es : Entries Node}
    (h : (Node.table origin es).Ordered) : Sorted es := by
  cases h with
  | table hes hall => exact ⟨hes, hall⟩

/- Settings out of nodes. -/

theorem settings_eq_map (es : Entries Node) :
    settings es = es.map fun e => (e.1, e.2.toSetting) := by
  induction es with
  | nil => rfl
  | cons e r ih => rw [settings, ih]; rfl

theorem settingTables_eq_map (ess : List (Entries Node)) :
    settingTables ess = ess.map fun es => .table (settings es) := by
  induction ess with
  | nil => rfl
  | cons es r ih => rw [settingTables, ih]; rfl

theorem ordered_settings {es : Entries Node} (hes : es.Increasing)
    (hall : ∀ e ∈ es, e.2.toSetting.Ordered) : (Setting.table (settings es)).Ordered := by
  rw [settings_eq_map]
  refine .table (hes.map toSetting) fun e he => ?_
  obtain ⟨e', he', rfl⟩ := List.mem_map.mp he
  exact hall e' he'

theorem Ordered.toSetting {n : Node} (h : n.Ordered) : n.toSetting.Ordered := by
  induction h with
  | leaf h => exact h
  | table hes _ ih => exact ordered_settings hes ih
  | tables hearlier _ hlast _ ih ihlast =>
    refine .list fun v hv => ?_
    rw [settingTables_eq_map] at hv
    rcases List.mem_append.mp hv with hv | hv
    · obtain ⟨es, hes, rfl⟩ := List.mem_map.mp hv
      exact ordered_settings (hearlier es hes) (ih es hes)
    · cases List.mem_singleton.mp hv
      exact ordered_settings hlast ihlast

theorem Sorted.settings {es : Entries Node} (h : Sorted es) :
    (Setting.table (Node.settings es)).Ordered :=
  ordered_settings h.increasing fun e he => (h.all e he).toSetting

/- What each change of a table keeps. -/

theorem Sorted.descend {change : Entries Node → Option (Entries Node)}
    (hchange : ∀ es es', Sorted es → change es = some es' → Sorted es') (path : List String)
    {es es' : Entries Node} (hes : Sorted es) (h : descend change path es = some es') :
    Sorted es' := by
  induction path generalizing es es' with
  | nil => exact hchange es es' hes h
  | cons k path ih =>
    rw [Node.descend] at h
    split at h
    · obtain ⟨sub, hsub, rfl⟩ := Option.map_eq_some_iff.mp h
      exact hes.insert k ((ih .nil hsub).table _)
    · next origin sub hk =>
      obtain ⟨sub', hsub, rfl⟩ := Option.map_eq_some_iff.mp h
      exact hes.insert k ((ih (hes.get? hk).members hsub).table origin)
    · next earlier last hk =>
      obtain ⟨last', hlast, rfl⟩ := Option.map_eq_some_iff.mp h
      cases hes.get? hk with
      | tables hearlier hall hinc hallLast =>
        have hlast' : Sorted last' := ih ⟨hinc, hallLast⟩ hlast
        exact hes.insert k (.tables hearlier hall hlast'.increasing hlast'.all)
    · cases h

theorem Sorted.openTable {k : String} {es es' : Entries Node} (hes : Sorted es)
    (h : openTable k es = some es') : Sorted es' := by
  rw [Node.openTable] at h
  split at h
  · cases h
    exact hes.insert k (Sorted.nil.table _)
  · next sub hk =>
    cases h
    exact hes.insert k ((hes.get? hk).members.table _)
  · cases h

theorem Sorted.openItem {k : String} {es es' : Entries Node} (hes : Sorted es)
    (h : openItem k es = some es') : Sorted es' := by
  rw [Node.openItem] at h
  split at h
  · cases h
    exact hes.insert k (.tables nofun nofun List.Pairwise.nil nofun)
  · next earlier last hk =>
    cases h
    cases hes.get? hk with
    | tables hearlier hall hlast hallLast =>
      refine hes.insert k (.tables (fun es hmem => ?_) (fun es hmem => ?_) List.Pairwise.nil nofun)
      · rcases List.mem_append.mp hmem with hmem | hmem
        · exact hearlier es hmem
        · cases List.mem_singleton.mp hmem
          exact hlast
      · rcases List.mem_append.mp hmem with hmem | hmem
        · exact hall es hmem
        · cases List.mem_singleton.mp hmem
          exact hallLast
  · cases h

theorem Sorted.assign {v : Setting} (hv : v.Ordered) (path : List String)
    {es es' : Entries Node} (hes : Sorted es) (h : assign v path es = some es') :
    Sorted es' := by
  fun_induction Node.assign v path es generalizing es' with
  | case1 => cases h
  | case2 k es hk =>
    cases h
    exact hes.insert k (.leaf hv)
  | case3 => cases h
  | case4 k path es hpath hk ih =>
    obtain ⟨sub, hsub, rfl⟩ := Option.map_eq_some_iff.mp h
    exact hes.insert k ((ih .nil hsub).table _)
  | case5 => cases h
  | case6 k path es hpath origin sub hheader hk ih =>
    obtain ⟨sub', hsub, rfl⟩ := Option.map_eq_some_iff.mp h
    exact hes.insert k ((ih (hes.get? hk).members hsub).table origin)
  | case7 => cases h

end Node

/- Values and the tables in them. -/

theorem exists_whole {cs : List Char} {v : Setting} (h : whole? cs = some v) :
    ∃ n, v = .whole n := by
  simp only [whole?] at h
  have hbound {m : Option Nat} {f : Nat → Int}
      (h : (m.bind fun n =>
        if Numeral.fitsWord (f n) then some (Setting.whole (f n)) else none) = some v) :
      ∃ n, v = .whole n := by
    obtain ⟨n, -, h⟩ := Option.bind_eq_some_iff.mp h
    split at h
    · cases h
      exact ⟨_, rfl⟩
    · cases h
  split at h
  · exact hbound h
  · exact hbound h
  · exact hbound h
  · split at h
    · exact hbound h
    · cases h

theorem exists_real {cs : List Char} {v : Setting} (h : real? cs = some v) :
    ∃ x, v = .real x := by
  simp only [real?] at h
  split at h
  · cases h
    exact ⟨_, rfl⟩
  · cases h
    exact ⟨_, rfl⟩
  · split at h
    · obtain ⟨d, -, h⟩ := Option.bind_eq_some_iff.mp h
      split at h
      · cases h
        exact ⟨_, rfl⟩
      · cases h
    · cases h

theorem exists_text {cs : List Char} {v : Setting} (h : moment? cs = some v) :
    ∃ s, v = .text s := by
  simp only [moment?] at h
  split at h
  · cases h
    exact ⟨_, rfl⟩
  · split at h
    · obtain ⟨t, -, h⟩ := Option.bind_eq_some_iff.mp h
      obtain ⟨o, -, h⟩ := Option.bind_eq_some_iff.mp h
      cases h
      exact ⟨_, rfl⟩
    · cases h
  · split at h
    · cases h
      exact ⟨_, rfl⟩
    · cases h

theorem ordered_of_scalar? {cs : List Char} {v : Setting} (h : scalar? cs = some v) :
    v.Ordered := by
  rw [scalar?] at h
  split at h
  · cases h
    exact .boolean true
  · split at h
    · cases h
      exact .boolean false
    · rw [Option.orElse_eq_or, Option.orElse_eq_or, Option.or_eq_some_iff,
        Option.or_eq_some_iff] at h
      rcases h with h | ⟨-, h | ⟨-, h⟩⟩
      · obtain ⟨n, rfl⟩ := exists_whole h
        exact .whole n
      · obtain ⟨x, rfl⟩ := exists_real h
        exact .real x
      · obtain ⟨s, rfl⟩ := exists_text h
        exact .text s

/-- What the readers of values, of items and of members promise about what they find. They call
each other, each time with less fuel. -/
structure Orderly (fuel : Nat) : Prop where
  value {cs v r} : value? fuel cs = some (v, r) → v.Ordered
  items {cs vs r} : items? fuel cs = some (vs, r) → ∀ v ∈ vs, Setting.Ordered v
  members {es cs es' r} : Node.Sorted es → inline? fuel es cs = some (es', r) → Node.Sorted es'

namespace Orderly
variable {fuel : Nat} {cs r : List Char}

theorem value_succ (ih : Orderly fuel) {v : Setting} (h : value? (fuel + 1) cs = some (v, r)) :
    v.Ordered := by
  rw [value?.eq_def] at h
  dsimp only at h
  split at h
  · obtain ⟨_, -, h⟩ := Option.map_eq_some_iff.mp h
    cases h
    exact .text _
  · obtain ⟨_, -, h⟩ := Option.map_eq_some_iff.mp h
    cases h
    exact .text _
  · obtain ⟨⟨vs, _⟩, hvs, h⟩ := Option.map_eq_some_iff.mp h
    cases h
    exact .list (ih.items hvs)
  · obtain ⟨⟨es, _⟩, hes, h⟩ := Option.map_eq_some_iff.mp h
    cases h
    exact (ih.members .nil hes).settings
  · obtain ⟨v', hv, h⟩ := Option.map_eq_some_iff.mp h
    cases h
    exact ordered_of_scalar? hv

theorem items_succ (ih : Orderly fuel) {vs : List Setting}
    (h : items? (fuel + 1) cs = some (vs, r)) : ∀ v ∈ vs, v.Ordered := by
  rw [items?] at h
  obtain ⟨_, -, h⟩ := Option.bind_eq_some_iff.mp h
  split at h
  · cases h
    nofun
  · obtain ⟨⟨v, _⟩, hv, h⟩ := Option.bind_eq_some_iff.mp h
    obtain ⟨_, -, h⟩ := Option.bind_eq_some_iff.mp h
    split at h
    · obtain ⟨⟨vs', _⟩, hvs, h⟩ := Option.bind_eq_some_iff.mp h
      cases h
      exact List.forall_mem_cons.mpr ⟨ih.value hv, ih.items hvs⟩
    · cases h
      exact List.forall_mem_singleton.mpr (ih.value hv)
    · cases h

theorem members_succ (ih : Orderly fuel) {es es' : Entries Node} (hes : Node.Sorted es)
    (h : inline? (fuel + 1) es cs = some (es', r)) : Node.Sorted es' := by
  rw [inline?] at h
  obtain ⟨_, -, h⟩ := Option.bind_eq_some_iff.mp h
  split at h
  · cases h
    exact hes
  · obtain ⟨⟨path, _⟩, -, h⟩ := Option.bind_eq_some_iff.mp h
    dsimp only at h
    split at h
    · obtain ⟨⟨v, _⟩, hv, h⟩ := Option.bind_eq_some_iff.mp h
      obtain ⟨es₁, hassign, h⟩ := Option.bind_eq_some_iff.mp h
      have hes₁ : Node.Sorted es₁ := hes.assign (ih.value hv) path hassign
      obtain ⟨_, -, h⟩ := Option.bind_eq_some_iff.mp h
      split at h
      · exact ih.members hes₁ h
      · cases h
        exact hes₁
      · cases h
    · cases h

end Orderly

theorem orderly (fuel : Nat) : Orderly fuel := by
  induction fuel with
  | zero => exact ⟨nofun, nofun, nofun⟩
  | succ fuel ih => exact ⟨ih.value_succ, ih.items_succ, ih.members_succ⟩

/- Documents. -/

def Statement.Ordered : Statement → Prop
  | .value _ v => v.Ordered
  | _ => True

theorem ordered_of_statement? {cs r : List Char} {s : Statement}
    (h : statement? cs = some (s, r)) : s.Ordered := by
  rw [statement?.eq_def] at h
  split at h
  · obtain ⟨⟨path, r₁⟩, -, h⟩ := Option.bind_eq_some_iff.mp h
    dsimp only at h
    split at h
    · cases h
      trivial
    · cases h
  · obtain ⟨⟨path, r₁⟩, -, h⟩ := Option.bind_eq_some_iff.mp h
    dsimp only at h
    split at h
    · cases h
      trivial
    · cases h
  · obtain ⟨⟨path, r₁⟩, -, h⟩ := Option.bind_eq_some_iff.mp h
    dsimp only at h
    split at h
    · obtain ⟨⟨v, r₂⟩, hv, h⟩ := Option.bind_eq_some_iff.mp h
      cases h
      exact (orderly _).value hv
    · cases h

theorem ordered_of_statements? {fuel : Nat} {cs : List Char} {ss : List Statement}
    (h : statements? fuel cs = some ss) : ∀ s ∈ ss, s.Ordered := by
  induction fuel generalizing cs ss with
  | zero =>
    cases h
    nofun
  | succ fuel ih =>
    rw [statements?] at h
    obtain ⟨r₁, -, h⟩ := Option.bind_eq_some_iff.mp h
    split at h
    · cases h
      nofun
    · obtain ⟨⟨s, r₂⟩, hs, h⟩ := Option.bind_eq_some_iff.mp h
      obtain ⟨r₃, -, h⟩ := Option.bind_eq_some_iff.mp h
      obtain ⟨ss', hss, h⟩ := Option.bind_eq_some_iff.mp h
      cases h
      exact List.forall_mem_cons.mpr ⟨ordered_of_statement? hs, ih hss⟩

theorem sorted_define {ss : List Statement} (hss : ∀ s ∈ ss, s.Ordered)
    {root root' : Entries Node} {current : List String} (hroot : Node.Sorted root)
    (h : define root current ss = some root') : Node.Sorted root' := by
  -- The root is in order after each statement, whatever table is current.
  induction ss generalizing root current with
  | nil =>
    cases h
    exact hroot
  | cons s ss ih =>
    obtain ⟨hs, hrest⟩ := List.forall_mem_cons.mp hss
    cases s with
    | table path =>
      rw [define] at h
      obtain ⟨last, -, h⟩ := Option.bind_eq_some_iff.mp h
      obtain ⟨root₁, hdescend, h⟩ := Option.bind_eq_some_iff.mp h
      exact ih hrest (hroot.descend (fun _ _ hes => hes.openTable) _ hdescend) h
    | item path =>
      rw [define] at h
      obtain ⟨last, -, h⟩ := Option.bind_eq_some_iff.mp h
      obtain ⟨root₁, hdescend, h⟩ := Option.bind_eq_some_iff.mp h
      exact ih hrest (hroot.descend (fun _ _ hes => hes.openItem) _ hdescend) h
    | value path v =>
      rw [define] at h
      obtain ⟨root₁, hdescend, h⟩ := Option.bind_eq_some_iff.mp h
      exact ih hrest (hroot.descend (fun _ _ hes => hes.assign hs path) _ hdescend) h

theorem ordered_of_parse {s : String} {es : Entries Setting} (h : parse s = some es) :
    (Setting.table es).Ordered := by
  rw [parse] at h
  obtain ⟨ss, hss, h⟩ := Option.bind_eq_some_iff.mp h
  obtain ⟨root, hroot, h⟩ := Option.bind_eq_some_iff.mp h
  cases h
  exact (sorted_define (ordered_of_statements? hss) .nil hroot).settings

end Rulebook.Toml
