import Rulebook.Json.Text

/-! Written values may stand on one line or on many. Both are layouts of the same text, which
differ in the blanks between its parts. -/

namespace Rulebook.Json

/-- The blanks around the items of a list that is so many levels deep, and those after a colon. -/
structure Layout where
  gap : Nat → List Char
  colon : List Char
  gap_space : ∀ depth, ∀ c ∈ gap depth, JsonText.isSpace c
  colon_space : ∀ c ∈ colon, JsonText.isSpace c

namespace Layout

def compact : Layout := ⟨fun _ => [], [], by simp, by simp⟩

theorem compact_gap (depth : Nat) : compact.gap depth = [] := rfl

theorem compact_colon : compact.colon = [] := rfl

theorem newline_space (depth : Nat) : ∀ c ∈ newline depth, JsonText.isSpace c := by
  intro c hc
  rcases List.mem_cons.mp hc with rfl | hc
  · rfl
  · rw [List.eq_of_mem_replicate hc]
    rfl

def lines : Layout := ⟨newline, [' '], newline_space, by simp [JsonText.isSpace]⟩

end Layout

variable (layout : Layout)

mutual

def writeIn (depth : Nat) : Json → List Char
  | .array [] => "[]".toList
  | .array (v :: r) =>
    '[' :: layout.gap (depth + 1) ++ itemsIn (depth + 1) (v :: r) ++ layout.gap depth ++ [']']
  | .object [] => ['{', '}']
  | .object (m :: r) =>
    '{' :: layout.gap (depth + 1) ++ membersIn (depth + 1) (m :: r) ++ layout.gap depth ++ ['}']
  | v => v.write

def itemsIn (depth : Nat) : List Json → List Char
  | [] => []
  | [v] => v.writeIn depth
  | v :: w :: r => v.writeIn depth ++ ',' :: layout.gap depth ++ itemsIn depth (w :: r)

def membersIn (depth : Nat) : List (String × Json) → List Char
  | [] => []
  | [(k, v)] => Quoted.write k ++ ':' :: (layout.colon ++ v.writeIn depth)
  | (k, v) :: m :: r =>
    Quoted.write k ++ ':' :: (layout.colon ++ v.writeIn depth) ++ ',' :: layout.gap depth ++
      membersIn depth (m :: r)

end

mutual

theorem writeIn_compact (depth : Nat) : ∀ v : Json, v.writeIn .compact depth = v.write
  | .null => rfl
  | .boolean _ => rfl
  | .number _ => rfl
  | .text _ => rfl
  | .array [] => rfl
  | .array (v :: r) => by
    simp [writeIn, write, Layout.compact_gap, itemsIn_compact (depth + 1) (v :: r)]
  | .object [] => rfl
  | .object (m :: r) => by
    simp [writeIn, write, Layout.compact_gap, membersIn_compact (depth + 1) (m :: r)]

theorem itemsIn_compact (depth : Nat) : ∀ vs : List Json,
    itemsIn .compact depth vs = writeItems vs
  | [] => rfl
  | [v] => writeIn_compact depth v
  | v :: w :: r => by
    simp [itemsIn, writeItems, Layout.compact_gap, writeIn_compact depth v,
      itemsIn_compact depth (w :: r)]

theorem membersIn_compact (depth : Nat) : ∀ ms : List (String × Json),
    membersIn .compact depth ms = writeMembers ms
  | [] => rfl
  | [(k, v)] => by
    simp [membersIn, writeMembers, Layout.compact_colon, writeIn_compact depth v]
  | (k, v) :: m :: r => by
    simp [membersIn, writeMembers, Layout.compact_gap, Layout.compact_colon,
      writeIn_compact depth v, membersIn_compact depth (m :: r)]

end

mutual

theorem writeIn_lines (depth : Nat) : ∀ v : Json, v.writeIn .lines depth = v.writeLines depth
  | .null => rfl
  | .boolean _ => rfl
  | .number _ => rfl
  | .text _ => rfl
  | .array [] => rfl
  | .array (v :: r) => by
    rw [writeIn, writeLines, itemsIn_lines (depth + 1) (v :: r)]
    rfl
  | .object [] => rfl
  | .object (m :: r) => by
    rw [writeIn, writeLines, membersIn_lines (depth + 1) (m :: r)]
    rfl

theorem itemsIn_lines (depth : Nat) : ∀ vs : List Json,
    itemsIn .lines depth vs = itemLines depth vs
  | [] => rfl
  | [v] => writeIn_lines depth v
  | v :: w :: r => by
    rw [itemsIn, itemLines, writeIn_lines depth v, itemsIn_lines depth (w :: r)]
    rfl

theorem membersIn_lines (depth : Nat) : ∀ ms : List (String × Json),
    membersIn .lines depth ms = memberLines depth ms
  | [] => rfl
  | [(k, v)] => by
    rw [membersIn, memberLines, writeIn_lines depth v]
    rfl
  | (k, v) :: m :: r => by
    rw [membersIn, memberLines, writeIn_lines depth v, membersIn_lines depth (m :: r)]
    rfl

end

end Rulebook.Json
