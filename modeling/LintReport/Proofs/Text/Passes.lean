import LintReport.Proofs.Text.Replace

set_option autoImplicit false

/- Patterns that are replaced one after the other. A pass reads the text that the pass before it
wrote, and in a single pass what is put in is not read again. -/
namespace LintReport.Text

variable {table : List (List Char × List Char)} {entry : List Char × List Char} {s t u : List Char}

theorem Replaced.replaceAll_eq (filled : entry.1 ≠ []) (replaced : Replaced [entry] s t) :
    replaceAll entry.1 entry.2 s = t := by
  induction replaced with
  | nil => rfl
  | @hit pattern new rest out first _ ih =>
      obtain rfl : (pattern, new) = entry :=
        List.mem_singleton.mp (Replaced.mem_of_patternAt? first)
      rw [replaceAll_append new filled, ih]
  | copy none _ ih =>
      have absent := patternAt?_eq_none_iff.mp none entry (List.mem_singleton.mpr rfl)
      rw [replaceAll_cons entry.2 absent, ih]

theorem replaced_singleton_iff (filled : entry.1 ≠ []) :
    Replaced [entry] s t ↔ replaceAll entry.1 entry.2 s = t := by
  constructor
  · exact Replaced.replaceAll_eq filled
  · rintro rfl
    obtain ⟨t, replaced⟩ := Replaced.exists_replaced (List.forall_mem_singleton.mpr filled) s
    rw [replaced.replaceAll_eq filled]
    exact replaced

/-- One pass for each pattern of a table, in its order. -/
inductive Passes : List (List Char × List Char) → List Char → List Char → Prop
  | nil {s : List Char} : Passes [] s s
  | cons {entry : List Char × List Char} {table : List (List Char × List Char)}
      {s t u : List Char} (first : Replaced [entry] s t) (rest : Passes table t u) :
      Passes (entry :: table) s u

theorem passes_nil_iff : Passes [] s u ↔ s = u := by
  constructor
  · rintro ⟨⟩
    rfl
  · rintro rfl
    exact .nil

theorem passes_cons_iff :
    Passes (entry :: table) s u ↔ ∃ t, Replaced [entry] s t ∧ Passes table t u := by
  constructor
  · rintro (_ | ⟨first, rest⟩)
    exact ⟨_, first, rest⟩
  · rintro ⟨t, first, rest⟩
    exact .cons first rest

theorem passes_iff_foldl (filled : ∀ entry ∈ table, entry.1 ≠ []) :
    Passes table s u ↔
      table.foldl (fun text entry => replaceAll entry.1 entry.2 text) s = u := by
  induction table generalizing s with
  | nil => exact passes_nil_iff
  | cons entry table ih =>
      obtain ⟨here, later⟩ := List.forall_mem_cons.mp filled
      rw [passes_cons_iff, List.foldl_cons]
      simp only [replaced_singleton_iff here, exists_eq_left', ih later]

end LintReport.Text
