import LintReport.Diagnostic
import LintReport.Proofs.Replacement.Token

set_option autoImplicit false

/- Fixes of diagnostics. The token of a fix holds its replacements, all of them as they were, and
a diagnostic without replacements has no token. -/
namespace LintReport.Diagnostic

theorem replacements?_withReplacements (d : Diagnostic) {rs : List Replacement}
    (texts : ∀ r ∈ rs, r.file.IsText) : (d.withReplacements rs).replacements? = some rs := by
  cases rs with
  | nil => rfl
  | cons r rs => exact Replacement.decode?_encode texts

theorem fix_withReplacements (d : Diagnostic) (rs : List Replacement) :
    (d.withReplacements rs).fix = none ↔ rs = [] := by
  cases rs <;> simp [withReplacements]

theorem fix_of_not_isText (d : Diagnostic) {rs : List Replacement} {r : Replacement}
    (member : r ∈ rs) (other : ¬ r.file.IsText) : (d.withReplacements rs).fix = some "[]" := by
  rw [withReplacements, List.isEmpty_eq_false_iff.mpr (List.ne_nil_of_mem member),
    if_neg Bool.false_ne_true, Replacement.encode_of_not_isText member other]

/-- Replacements in files whose paths are UTF-8 come back from their token in order and with all
their fields, whether or not they have a range. So they do from the diagnostic that they are
attached to, of which nothing else changes; only a diagnostic without replacements has no token. -/
theorem withReplacements_kept (d : Diagnostic) (rs : List Replacement)
    (texts : ∀ r ∈ rs, r.file.IsText) :
    Replacement.decode? (Replacement.encode rs) = some rs ∧
    (d.withReplacements rs).replacements? = some rs ∧
    ((d.withReplacements rs).fix = none ↔ rs = []) ∧
    (∀ token, (d.withReplacements rs).fix = some token → token = Replacement.encode rs) ∧
    { d.withReplacements rs with fix := d.fix } = d := by
  refine ⟨Replacement.decode?_encode texts, replacements?_withReplacements d texts,
    fix_withReplacements d rs, ?_, rfl⟩
  intro token attached
  rw [withReplacements] at attached
  split at attached
  · cases attached
  · exact (Option.some.inj attached).symm

theorem withReplacements_kept_quoted :
    let d : Diagnostic := ⟨Range.point ⟨0, 0⟩, .warning, "m", none⟩
    let wide : Replacement := ⟨⟨"/é \"q\".c"⟩, 18446744073709551615, 1, "\\ \n \u0001 😀", none⟩
    let placed : Replacement := ⟨⟨""⟩, 0, 0, "", some ⟨⟨4294967295, 0⟩, ⟨4294967295, 1⟩⟩⟩
    (∀ r ∈ [wide, placed], r.file.IsText) ∧
      (d.withReplacements [wide, placed]).replacements? = some [wide, placed] := by
  intro d wide placed
  have texts : ∀ r ∈ [wide, placed], r.file.IsText := by
    rw [List.forall_mem_cons, List.forall_mem_singleton]
    exact ⟨⟨_, rfl⟩, ⟨_, rfl⟩⟩
  exact ⟨texts, (withReplacements_kept d [wide, placed] texts).2.1⟩

end LintReport.Diagnostic
