import Rulebook.Proofs.Context.Readers
import Rulebook.Proofs.Json.Real
import Rulebook.Proofs.Tree.ReadSet

/-! Contexts that are stored as JSON text and read again. Their keys, texts and booleans come back.
A number comes back as what is read from its digits: that is a number close to it, and not always
the same. -/

namespace Rulebook

/-- The number that is read from the JSON text of this one, if it has one. -/
def Binary64.reread : Binary64 → Binary64
  | .nan => .nan
  | .signed negative x => .signed negative x.reread

/-- Whether the digits that are written and their power of ten are both binary64 numbers. -/
def Magnitude.IsWrittenExactly (x : Magnitude) : Prop :=
  (ofNat x.written.digits).units = x.written.digits * one ∧ x.written.exponent.natAbs ≤ 22

namespace Value

def reread : Value → Value
  | .number x => .number x.reread
  | v => v

/-- What a value may come back as. A number keeps its sign and moves by three places at most, zero
does not move, and neither does a number that is written exactly. -/
inductive Recalled : Value → Value → Prop where
  | boolean (b : Bool) : Recalled (.boolean b) (.boolean b)
  | text (s : String) : Recalled (.text s) (.text s)
  | number (negative : Bool) {x y : Magnitude} (finite : y.IsFinite) (below : x.rank ≤ y.rank + 3)
      (above : y.rank ≤ x.rank + 3) (zero : y = .zero ↔ x = .zero)
      (exact : x.IsWrittenExactly → y = x) :
      Recalled (.number (.signed negative x)) (.number (.signed negative y))

theorem recalled_reread {v : Value} (h : v.IsFinite) : v.Recalled v.reread := by
  cases v with
  | boolean b => exact .boolean b
  | text s => exact .text s
  | number x =>
    cases x with
    | nan => cases h
    | signed negative x =>
      obtain ⟨hfinite, habove, hbelow⟩ := Magnitude.reread_near h
      exact .number negative hfinite hbelow habove (Magnitude.reread_eq_zero h) fun hexact =>
        Magnitude.reread_of_exact hexact.1 hexact.2

theorem isFinite_reread {v : Value} (h : v.IsFinite) : v.reread.IsFinite := by
  generalize hw : v.reread = w
  have hrecalled := recalled_reread h
  rw [hw] at hrecalled
  cases hrecalled with
  | boolean b => trivial
  | text s => trivial
  | number negative finite => exact finite

theorem reread_ofInt {n : Int} (h : 10 * n.natAbs ≤ 2 ^ 54) :
    (Value.number (.ofInt n)).reread = .number (.ofInt n) := by
  simp only [reread, Binary64.ofInt, Binary64.reread, Magnitude.reread_ofNat h]

theorem equal_reread_iff {v : Value} (h : v.IsFinite) : v.equal v.reread ↔ v.reread = v := by
  refine ⟨fun heq => ?_, fun heq => heq.symm ▸ equal_self h.ne_nan⟩
  cases v with
  | boolean b => rfl
  | text s => rfl
  | number x =>
    cases x with
    | nan => cases h
    | signed negative x =>
      have hrank : x.rank = x.reread.rank := by
        cases negative <;>
          simpa [equal, Binary64.equal, Binary64.compare?, Binary64.reread, Binary64.place,
            Value.reread] using heq
      have hsame : x.reread = x := by rw [← Magnitude.ofRank_rank x.reread, ← hrank, x.ofRank_rank]
      rw [reread, Binary64.reread, hsame]

theorem toJson_of_isFinite {v : Value} (h : v.IsFinite) (room : Document.Room) :
    Json.ofDocument room v.toJson.document = .ok v.toJson ∧ ofJson? v.toJson = some v := by
  cases v with
  | boolean b => exact ⟨rfl, rfl⟩
  | text s => exact ⟨rfl, rfl⟩
  | number x =>
    have hx : x.IsFinite := h
    rw [toJson, if_pos hx]
    exact ⟨rfl, rfl⟩

/- The same for all fields of a context, in the order in which they are written. -/

def members (fields : List (String × Value)) : List (String × Json) :=
  fields.map fun e => (e.1, e.2.toJson)

def rereadAll (fields : List (String × Value)) : List (String × Value) :=
  fields.map fun e => (e.1, e.2.reread)

theorem isFinite_rereadAll {fields : List (String × Value)} (h : ∀ e ∈ fields, e.2.IsFinite) :
    ∀ e ∈ rereadAll fields, e.2.IsFinite := by
  intro e he
  obtain ⟨e', he', rfl⟩ := List.mem_map.mp he
  exact isFinite_reread (h e' he')

end Value

namespace JsonText

theorem value_toJson (fuel : Nat) {v : Value} (h : v.IsFinite) {rest : List Char}
    (hrest : Ends rest) :
    value (fuel + 1) (v.toJson.write ++ rest) = (v.reread.toJson.document, some rest) := by
  cases v with
  | boolean b =>
    cases b with
    | true => exact value_true fuel rest
    | false => exact value_false fuel rest
  | text s => exact value_text fuel s rest
  | number x =>
    cases x with
    | nan => cases h
    | signed negative x =>
      have hx : (Binary64.signed negative x).IsFinite := h
      have hreread : (Binary64.signed negative x.reread).IsFinite := Value.isFinite_reread h
      have hvalue := value_real fuel negative hx hrest
      rw [Value.reread, Binary64.reread, Value.toJson, Value.toJson, if_pos hx, if_pos hreread]
      exact hvalue

theorem length_le_writeMembers (ms : List (String × Json)) :
    ms.length ≤ (Json.writeMembers ms).length := by
  induction ms with
  | nil => exact Nat.le_refl 0
  | cons m r ih =>
    cases r with
    | nil =>
      simp only [Json.writeMembers, List.length_append, List.length_cons, List.length_nil]
      omega
    | cons m' r =>
      simp only [Json.writeMembers, List.length_append, List.length_cons] at ih ⊢
      omega

section
open Value (rereadAll)

theorem members_members {e : String × Value} {r : List (String × Value)} (fuel : Nat)
    (h : ∀ f ∈ e :: r, f.2.IsFinite) (rest : List Char) :
    members (fuel + r.length + 2) (Json.writeMembers (Value.members (e :: r)) ++ '}' :: rest) =
      (Json.membersDocument (Value.members (rereadAll (e :: r))), some rest) := by
  induction r generalizing e with
  | nil =>
    have hv := value_toJson fuel (h e List.mem_cons_self) (ends_cons '}' rest (by decide))
    have hlast := members_last (fuel + 1) e.1 _ [] rest _ (by simp) hv
    have htext : Json.writeMembers (Value.members [e]) ++ '}' :: rest =
        Quoted.write e.1 ++ ':' :: (e.2.toJson.write ++ '}' :: rest) := by
      simp [Value.members, Json.writeMembers]
    rw [htext]
    exact hlast
  | cons e' r ih =>
    have htail := ih fun f hf => h f (List.mem_cons_of_mem e hf)
    have hv := value_toJson (fuel + r.length + 1) (h e List.mem_cons_self)
      (ends_cons ',' (Json.writeMembers (Value.members (e' :: r)) ++ '}' :: rest) (by decide))
    have hmore := members_more (fuel + r.length + 2) e.1 _ _ _ hv
    have htext : Json.writeMembers (Value.members (e :: e' :: r)) ++ '}' :: rest =
        Quoted.write e.1 ++ ':' :: (e.2.toJson.write ++ ',' ::
          (Json.writeMembers (Value.members (e' :: r)) ++ '}' :: rest)) := by
      simp [Value.members, Json.writeMembers]
    rw [htail] at hmore
    rw [htext]
    exact hmore

theorem ofString_members {fields : List (String × Value)} (h : ∀ e ∈ fields, e.2.IsFinite) :
    ofString (Json.object (Value.members fields)).render =
      ⟨.object (Json.membersDocument (Value.members (rereadAll fields))), false⟩ := by
  rw [ofString, Json.render, String.toList_ofList]
  cases fields with
  | nil => rfl
  | cons e r =>
    obtain ⟨fuel, hfuel⟩ : ∃ fuel,
        2 * (Json.object (Value.members (e :: r))).write.length + 1 = fuel + r.length + 2 := by
      have hlength := length_le_writeMembers (Value.members (e :: r))
      rw [Value.members, List.length_map, List.length_cons] at hlength
      refine ⟨2 * (Json.object (Value.members (e :: r))).write.length - r.length - 1, ?_⟩
      rw [Json.write, List.length_append, List.length_cons, Value.members]
      omega
    have hmembers := members_members fuel h []
    rw [← hfuel] at hmembers
    obtain ⟨cs, hcs⟩ : ∃ cs, Json.writeMembers (Value.members (e :: r)) ++ ['}'] = '"' :: cs := by
      rw [← Json.membersIn_compact 0]
      exact membersIn_cons .compact 0 _ _ _
    have htext : (Json.object (Value.members (e :: r))).write = '{' :: ([] ++ '"' :: cs) := by
      rw [Json.write, List.cons_append, hcs, List.nil_append]
    have hvalue := value_object (2 * (Json.object (Value.members (e :: r))).write.length + 1) [] cs
      (by simp)
    rw [← htext, ← hcs, hmembers] at hvalue
    rw [ofChars, hvalue]
    rfl

end

end JsonText

namespace Context
open Document Value
variable {c : Context}

def reread (c : Context) : Context := ⟨rereadAll c.entries, c.increasing.map _⟩

/-- A text of the context. Its fields may stand in any order. -/
def StoredAs (c : Context) (s : String) : Prop :=
  ∃ fields : List (String × Value), fields.Perm c.entries ∧
    s = (Json.object (members fields)).render

theorem storedAs_render (c : Context) : c.StoredAs c.toJson.render :=
  ⟨c.entries, List.Perm.refl _, rfl⟩

theorem get?_reread (c : Context) (k : String) : c.reread.get? k = (c.get? k).map Value.reread :=
  Entries.get?_map Value.reread c.entries k

theorem bindDocument_members {room : Room} {fields : List (String × Value)} (c : Context)
    (h : ∀ e ∈ fields, e.2.IsFinite) :
    ∃ d, bindDocument room c (Json.membersDocument (members fields)) = .ok d ∧
      d.entries = fields.foldl (fun es kv => Entries.insert kv.1 kv.2 es) c.entries := by
  induction fields generalizing c with
  | nil => exact ⟨c, rfl, rfl⟩
  | cons e r ih =>
    obtain ⟨k, v⟩ := e
    obtain ⟨d, hd, hentries⟩ := ih (c.insert k v) fun e he => h e (List.mem_cons_of_mem _ he)
    have hvalue : Value.ofDocument room v.toJson.document = .ok v :=
      Value.ofDocument_eq_ok.mpr ⟨_, toJson_of_isFinite (h _ List.mem_cons_self) room⟩
    refine ⟨d, ?_, hentries⟩
    exact bind_eq_ok.mpr ⟨k, rfl, bind_eq_ok.mpr ⟨v, hvalue, hd⟩⟩

theorem read_stored (hc : c.Finite) {s : String} (hs : c.StoredAs s) :
    (JsonText.ofString s).read (ofDocument textRoom) = .ok c.reread := by
  obtain ⟨fields, hperm, rfl⟩ := hs
  have hfinite : ∀ e ∈ fields, e.2.IsFinite := fun e he => hc e (hperm.mem_iff.mp he)
  obtain ⟨d, hd, hentries⟩ := bindDocument_members .empty (isFinite_rereadAll hfinite)
  have hsorted : Entries.ofList (rereadAll fields) = c.reread.entries :=
    Entries.ofList_perm c.reread.increasing (hperm.map _)
  have hsame : d = c.reread := ext fun k => by
    rw [get?, hentries]
    exact congrArg (Entries.get? k) hsorted
  rw [← hsame]
  exact read_eq_ok.mpr ⟨_, JsonText.ofString_members hfinite, hd⟩

theorem evaluate_reread {t : Tree}
    (h : ∀ x ∈ t.fields, ∀ v, c.get? x = some v → v.reread = v) :
    t.evaluate c.reread = t.evaluate c := by
  refine Tree.evaluate_congr fun x hx => ?_
  rw [get?_reread]
  cases hv : c.get? x with
  | none => rfl
  | some v => exact congrArg some (h x hx v hv)

theorem equal_reread_iff (hc : c.Finite) :
    c.equal c.reread ↔ ∀ k v, c.get? k = some v → v.reread = v := by
  refine (c.equal_map Value.reread).trans ⟨fun h k v hv => ?_, fun h e he => ?_⟩
  · exact (Value.equal_reread_iff (hc.get? hv)).mp (h (k, v) (Entries.mem_of_get? hv))
  · exact (Value.equal_reread_iff (hc e he)).mpr (h e.1 e.2 (c.increasing.get?_eq_some.mpr he))

/-- Both readers take a text of a context, whatever the order of its fields, and find the same
context: every field as it was, but for numbers that come back as near ones. It equals the one that
was stored if no number has moved, and trees that read none of those that have find what they found
before. -/
theorem stored_context (c : Context) (hc : c.Finite) :
    c.StoredAs c.toJson.render ∧
    (∀ s, c.StoredAs s → ofText s = .ok c.reread ∧
      (JsonText.ofString s).read (ofDocument textRoom) = .ok c.reread) ∧
    (∀ k, c.reread.get? k = (c.get? k).map Value.reread) ∧
    (∀ k v, c.get? k = some v → v.Recalled v.reread) ∧
    (∀ k (n : Int), c.get? k = some (.number (.ofInt n)) → 10 * n.natAbs ≤ 2 ^ 54 →
      c.reread.get? k = some (.number (.ofInt n))) ∧
    (c.equal c.reread ↔ ∀ k v, c.get? k = some v → v.reread = v) ∧
    ∀ t : Tree, (∀ x ∈ t.fields, ∀ v, c.get? x = some v → v.reread = v) →
      t.evaluate c.reread = t.evaluate c := by
  refine ⟨c.storedAs_render, fun s hs => ?_, c.get?_reread,
    fun k v hv => recalled_reread (hc.get? hv), fun k n hv hn => ?_, equal_reread_iff hc,
    fun t => evaluate_reread⟩
  · have hread := read_stored hc hs
    exact ⟨ofText_of_read hread, hread⟩
  · rw [get?_reread, hv, Option.map_some, reread_ofInt hn]

theorem stored_context_unsorted :
    let c := ofList [("age", .number (.ofInt 35)), ("name", .text "a\"b"), ("ok", .boolean true)]
    let s := "\x7b\"ok\":true,\"name\":\"a\\\"b\",\"age\":35.0\x7d"
    let t := Tree.node .and (.node .gt (.operand "age") (.operand "18")) (.operand "ok")
    c.Finite ∧ c.StoredAs s ∧ ofText s = .ok c.reread ∧ c.equal c.reread ∧
      c.reread.get? "age" = some (.number (.ofInt 35)) ∧ t.evaluate c.reread = t.evaluate c := by
  intro c s t
  have hc : c.Finite := by decide +kernel
  have hs : c.StoredAs s := ⟨c.entries.reverse, List.reverse_perm _, by decide +kernel⟩
  have hequal : c.equal c.reread := by decide +kernel
  obtain ⟨-, hread, -, -, hinteger, hsame, htree⟩ := stored_context c hc
  exact ⟨hc, hs, (hread s hs).1, hequal, hinteger "age" 35 (by decide +kernel) (by decide),
    htree t fun x _ => hsame.mp hequal x⟩

/-- Sixteen digits and the one behind the point are more than a binary64 takes. -/
theorem stored_context_differs :
    let n := 1801439850948199
    let c := ofList [("x", .number (.ofInt n))]
    let t := Tree.node .eq (.operand "x") (.operand "1801439850948199")
    c.Finite ∧ ∃ d, ofText c.toJson.render = .ok d ∧
      (JsonText.ofString c.toJson.render).read (ofDocument textRoom) = .ok d ∧
      c.equal d = false ∧ t.evaluate c = .ok (.boolean true) ∧
      t.evaluate d = .ok (.boolean false) := by
  intro n c t
  have hc : c.Finite := by decide +kernel
  have hread := read_stored hc c.storedAs_render
  refine ⟨hc, c.reread, ofText_of_read hread, hread, ?_, ?_, ?_⟩
  · decide +kernel
  · decide +kernel
  · decide +kernel

end Context
end Rulebook
