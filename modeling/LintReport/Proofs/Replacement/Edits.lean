import LintReport.Proofs.Path.Grouped
import LintReport.Replacement
import Mathlib.Algebra.GroupWithZero.Nat

set_option autoImplicit false

/- Edits grouped by the file that they are for. None is lost, doubled, moved or put to another
file, and a replacement without a range has no part in it. -/
namespace LintReport

open LintReport.Path (Same)

namespace Replacement

/-- The edit of a replacement under its file; nothing without a range. -/
def filed? (r : Replacement) : Option (Path × List TextEdit) := r.edit?.map fun e => (r.file, [e])

theorem filed?_eq_none {r : Replacement} (unplaced : r.range = none) : r.filed? = none := by
  rw [filed?, edit?, unplaced]
  rfl

theorem filed?_eq_some {r : Replacement} {range : Range} (placed : r.range = some range) :
    r.filed? = some (r.file, [⟨range, r.text⟩]) := by
  rw [filed?, edit?, placed]
  rfl

/-- The edits for one file. -/
def editsFor (file : Path) (rs : List Replacement) : List TextEdit :=
  rs.filterMap fun r => if Same r.file file then r.range.map fun range => ⟨range, r.text⟩ else none

/-- The replacements that can be applied. -/
def placed (rs : List Replacement) : List Replacement := rs.filter fun r => r.range.isSome

theorem editsFor_append (file : Path) (rs rs' : List Replacement) :
    editsFor file (rs ++ rs') = editsFor file rs ++ editsFor file rs' := List.filterMap_append

theorem editsFor_singleton (file : Path) {r : Replacement} {range : Range}
    (placed : r.range = some range) :
    editsFor file [r] = if Same r.file file then [⟨range, r.text⟩] else [] := by
  unfold editsFor
  by_cases same : Same r.file file
  · rw [List.filterMap_cons_some (by rw [if_pos same, placed, Option.map_some]), if_pos same]
    rfl
  · rw [List.filterMap_cons_none (by rw [if_neg same]), if_neg same]
    rfl

theorem exists_filed?_iff (rs : List Replacement) (file : Path) :
    (∃ e ∈ rs.filterMap filed?, Same e.1 file) ↔
      ∃ r ∈ rs, Same r.file file ∧ r.range.isSome = true := by
  constructor
  · rintro ⟨e, listed, same⟩
    obtain ⟨r, member, made⟩ := List.mem_filterMap.mp listed
    obtain ⟨edit, ranged, rfl⟩ := Option.map_eq_some_iff.mp made
    obtain ⟨range, found, _⟩ := Option.map_eq_some_iff.mp ranged
    exact ⟨r, member, same, by rw [found, Option.isSome_some]⟩
  · rintro ⟨r, member, same, ranged⟩
    obtain ⟨range, found⟩ := Option.isSome_iff_exists.mp ranged
    exact ⟨_, List.mem_filterMap.mpr ⟨r, member, filed?_eq_some found⟩, same⟩

theorem valuesAt_filterMap_filed? (rs : List Replacement) (file : Path) :
    PathMap.valuesAt (rs.filterMap filed?) file = editsFor file rs := by
  induction rs with
  | nil => rfl
  | cons r rs ih =>
      cases ranged : r.range with
      | none =>
          have skipped : editsFor file (r :: rs) = editsFor file rs := by
            rw [editsFor, List.filterMap_cons_none (by simp [ranged]), ← editsFor]
          rw [List.filterMap_cons_none (filed?_eq_none ranged), ih, skipped]
      | some range =>
          have parts : editsFor file (r :: rs) = editsFor file [r] ++ editsFor file rs :=
            editsFor_append file [r] rs
          rw [List.filterMap_cons_some (filed?_eq_some ranged), PathMap.valuesAt_cons, ih, parts,
            editsFor_singleton file ranged]

theorem filterMap_filed?_placed (rs : List Replacement) :
    (placed rs).filterMap filed? = rs.filterMap filed? := by
  induction rs with
  | nil => rfl
  | cons r rs ih =>
      cases ranged : r.range with
      | none =>
          rw [List.filterMap_cons_none (filed?_eq_none ranged), placed,
            List.filter_cons_of_neg (by simp [ranged]), ← placed, ih]
      | some range =>
          rw [List.filterMap_cons_some (filed?_eq_some ranged), placed,
            List.filter_cons_of_pos (by simp [ranged]),
            List.filterMap_cons_some (filed?_eq_some ranged), ← placed, ih]

/-- Each replacement that can be applied gives one edit. -/
theorem length_flatMap_filed? (rs : List Replacement) :
    ((rs.filterMap filed?).flatMap Prod.snd).length = (placed rs).length := by
  induction rs with
  | nil => rfl
  | cons r rs ih =>
      cases ranged : r.range with
      | none =>
          rw [List.filterMap_cons_none (filed?_eq_none ranged), ih, placed, placed,
            List.filter_cons_of_neg (by simp [ranged])]
      | some range =>
          rw [List.filterMap_cons_some (filed?_eq_some ranged), List.flatMap_cons,
            List.length_append, List.length_singleton, ih, placed, placed,
            List.filter_cons_of_pos (by simp [ranged]), List.length_cons, Nat.add_comm]

end Replacement

open Replacement (editsFor placed filed?)

theorem editsByFile_eq_grouped (rs : List Replacement) :
    editsByFile rs = PathMap.grouped (rs.filterMap filed?) := by
  unfold editsByFile PathMap.grouped
  generalize PathMap.empty = edits
  induction rs generalizing edits with
  | nil => rfl
  | cons r rs ih =>
      rw [List.foldl_cons, ih]
      cases made : r.edit? with
      | none => rw [List.filterMap_cons_none (by rw [filed?, made, Option.map_none])]
      | some e =>
          rw [List.filterMap_cons_some (by rw [filed?, made, Option.map_some]), List.foldl_cons]
          rfl

theorem getD_find?_editsByFile (rs : List Replacement) (p : Path) :
    ((editsByFile rs).find? p).getD [] = editsFor p rs := by
  rw [editsByFile_eq_grouped, PathMap.getD_find?_grouped, Replacement.valuesAt_filterMap_filed?]

/-- A path is a key when a replacement of that path, however it is spelled, has a range. Under it lie
the edits of all of them in order, and no others. So a list that is cut in two gives under each
path the edits of its first part and behind them those of its second. -/
theorem editsByFile_exact (rs : List Replacement) :
    let edits := editsByFile rs
    (∀ p, (∃ key ∈ edits.keys, Same key p) ↔ ∃ r ∈ rs, Same r.file p ∧ r.range.isSome = true) ∧
    edits.keys.Pairwise (fun p q => p.compare q = .lt) ∧
    (∀ p es, (p, es) ∈ edits.entries → es = editsFor p rs) ∧
    (∀ p, edits.find? p =
      if ∃ r ∈ rs, Same r.file p ∧ r.range.isSome = true then some (editsFor p rs) else none) ∧
    (edits.values.map List.length).sum = (placed rs).length ∧
    (∀ xs ys, rs = xs ++ ys → ∀ p, (edits.find? p).getD [] =
      ((editsByFile xs).find? p).getD [] ++ ((editsByFile ys).find? p).getD []) ∧
    edits = editsByFile (placed rs) := by
  intro edits
  have groups : edits = PathMap.grouped (rs.filterMap filed?) := editsByFile_eq_grouped rs
  have ordered : edits.Ordered := groups ▸ PathMap.ordered_grouped (rs.filterMap filed?)
  have found (p : Path) : edits.find? p =
      if ∃ r ∈ rs, Same r.file p ∧ r.range.isSome = true then some (editsFor p rs) else none := by
    rw [groups, PathMap.find?_grouped, Replacement.valuesAt_filterMap_filed?]
    simp only [Replacement.exists_filed?_iff]
  refine ⟨?_, ordered.keys, ?_, found, ?_, ?_, ?_⟩
  · intro p
    constructor
    · rintro ⟨key, member, same⟩
      obtain ⟨es, listed⟩ := PathMap.exists_find?_of_mem_keys member
      by_contra none
      rw [PathMap.find?_eq_of_same _ same, found p, if_neg none] at listed
      cases listed
    · intro ranged
      by_contra none
      have absent := PathMap.find?_eq_none fun key member same => none ⟨key, member, same⟩
      rw [found p, if_pos ranged] at absent
      cases absent
  · intro p es member
    have listed := ((PathMap.mem_entries_iff ordered p es).mp member).2
    rw [← getD_find?_editsByFile, listed, Option.getD_some]
  · rw [← List.length_flatten, groups, PathMap.length_flatten_grouped,
      Replacement.length_flatMap_filed?]
  · rintro xs ys rfl p
    rw [getD_find?_editsByFile, getD_find?_editsByFile, getD_find?_editsByFile,
      Replacement.editsFor_append]
  · rw [editsByFile_eq_grouped (placed rs), Replacement.filterMap_filed?_placed, groups]

end LintReport
