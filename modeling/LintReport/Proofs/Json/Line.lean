import LintReport.Json.Sorted
import LintReport.Proofs.Json.Parse

set_option autoImplicit false

/- A value on a line of its own. Its text holds no end of a line, and with the members of each
object in order it still can be read back and still has the same members. -/
namespace LintReport.Json

theorem hexDigit_ne_newline {n : Nat} (small : n < 16) : hexDigit n ≠ '\n' := by
  interval_cases n <;> decide

@[simp] theorem newline_not_mem_escape (c : Char) : '\n' ∉ escape c := by
  have written := written_escape c
  generalize escape c = chars at written ⊢
  cases written with
  | @short e known =>
      have other : e ≠ '\n' := by
        rintro rfl
        simp [shortEscapes] at known
      simp [Ne.symm other]
  | control small =>
      have high := hexDigit_ne_newline (n := c.toNat / 16) (by omega)
      have low := hexDigit_ne_newline (n := c.toNat % 16) (by omega)
      simp [Ne.symm high, Ne.symm low]
  | plain unquoted unescaped large =>
      have other : c ≠ '\n' := by
        rintro rfl
        exact large (by decide)
      simp [Ne.symm other]

@[simp] theorem newline_not_mem_quoted (s : String) : '\n' ∉ quoted s := by
  have inside : '\n' ∉ s.toList.flatMap escape := by
    rw [List.mem_flatMap]
    rintro ⟨c, _, member⟩
    exact newline_not_mem_escape c member
  simp [quoted, inside]

@[simp] theorem newline_not_mem_decimal (n : Nat) : '\n' ∉ Text.decimal n := fun member =>
  Text.ne_of_isDigit (Text.isDigit_of_mem_decimal member) (by decide) rfl

mutual

/-- The text of a value stays on one line. -/
@[simp] theorem newline_not_mem_render : ∀ j : Json, '\n' ∉ j.render
  | .null => by simp [render]
  | .bool true => by simp [render]
  | .bool false => by simp [render]
  | .natural n => newline_not_mem_decimal n
  | .otherNumber => by simp [render]
  | .text s => newline_not_mem_quoted s
  | .brokenText => newline_not_mem_quoted ""
  | .array items => by simp [render, newline_not_mem_renderItems items]
  | .object members => by simp [render, newline_not_mem_renderMembers members]

theorem newline_not_mem_renderItems : ∀ items : List Json, '\n' ∉ renderItems items
  | [] => List.not_mem_nil
  | [item] => newline_not_mem_render item
  | item :: next :: rest => by
      simp [renderItems, newline_not_mem_render item, newline_not_mem_renderItems (next :: rest)]

theorem newline_not_mem_renderMembers :
    ∀ members : List (Option String × Json), '\n' ∉ renderMembers members
  | [] => List.not_mem_nil
  | [(name, value)] => by
      simp [renderMembers, newline_not_mem_render value]
  | (name, value) :: next :: rest => by
      simp [renderMembers, newline_not_mem_render value,
        newline_not_mem_renderMembers (next :: rest)]

end

theorem sortedItems_eq (items : List Json) : sortedItems items = items.map sorted := by
  induction items with
  | nil => rfl
  | cons item items ih => rw [sortedItems, ih, List.map_cons]

theorem sortedMembers_eq (members : List (Option String × Json)) :
    sortedMembers members = members.map fun m => (m.1, m.2.sorted) := by
  induction members with
  | nil => rfl
  | cons m members ih => rw [sortedMembers, ih, List.map_cons]

/-- Sorting puts the members of an object in another order. -/
theorem exists_perm_sorted (members : List (Option String × Json)) :
    ∃ members', (object members).sorted = .object members' ∧
      members'.Perm (members.map fun m => (m.1, m.2.sorted)) :=
  ⟨_, rfl, sortedMembers_eq members ▸ List.mergeSort_perm _ _⟩

theorem Plain.sorted {j : Json} (plain : Plain j) : Plain j.sorted := by
  induction plain with
  | null => exact .null
  | bool b => exact .bool b
  | natural n => exact .natural n
  | text s => exact .text s
  | @array items _ ih =>
      rw [Json.sorted, sortedItems_eq]
      refine .array ?_
      intro item member
      obtain ⟨item', member', rfl⟩ := List.mem_map.mp member
      exact ih item' member'
  | @object members named _ ih =>
      obtain ⟨members', equal, perm⟩ := exists_perm_sorted members
      rw [equal]
      refine .object ?_ ?_
      · intro m member
        obtain ⟨m', member', rfl⟩ := List.mem_map.mp (perm.mem_iff.mp member)
        exact named m' member'
      · intro m member
        obtain ⟨m', member', rfl⟩ := List.mem_map.mp (perm.mem_iff.mp member)
        exact ih m' member'

/-- An object with these members, in whatever order. -/
def IsObject (j : Json) (members : List (String × Json)) : Prop :=
  ∃ members', j = record members' ∧ members'.Perm members

/-- A sorted record is an object with the values in sorted form. -/
theorem isObject_sorted_record (members : List (String × Json)) :
    (record members).sorted.IsObject (members.map fun m => (m.1, m.2.sorted)) := by
  let named := members.map fun m => (m.1, m.2.sorted)
  refine ⟨named.mergeSort fun a b => decide (a.1 ≤ b.1), ?_, List.mergeSort_perm _ _⟩
  have same : sortedMembers (members.map fun m => (some m.1, m.2)) =
      named.map fun m => (some m.1, m.2) := by
    rw [sortedMembers_eq, List.map_map, List.map_map]
    rfl
  rw [record, sorted, record, same, List.map_mergeSort]
  exact fun _ _ _ _ => rfl

end LintReport.Json
