import LintReport.Proofs.Path.Anchored
import LintReport.Proofs.Text.Passes
import LintReport.Proofs.Workspace.Substitute

set_option autoImplicit false

/- What a text in a configuration means for some folders, whatever their names and paths are: the
text with its placeholders filled in one after the other, or the one path in normal form that
leads where this text does. -/
namespace LintReport

namespace Path

theorem normalize_filled (p : Path) : p.normalize.bytes ≠ [] := by
  intro empty
  have nowhere : p.normalize = ⟨[]⟩ := congrArg Path.mk empty
  have again := normalize_normalize p
  rw [nowhere] at again
  exact absurd again (by decide +kernel)

theorem join_filled {p : Path} (filled : p.bytes ≠ []) (rest : Path) :
    (p.join rest).bytes ≠ [] := by
  unfold join
  split
  · next absolute =>
      obtain ⟨below, spelled⟩ := isAbsolute_iff.mp absolute
      intro empty
      simp [empty] at spelled
  · split
    · simp [filled]
    · simp

end Path

namespace Workspace

variable (workingFolder defaultFolder : Path) (folders : List WorkspaceFolder) (raw : String)

theorem placeholders_filled : ∀ entry ∈ placeholders defaultFolder folders, entry.1 ≠ [] := by
  rw [placeholders, List.forall_mem_cons, List.forall_mem_map]
  have first : placeholder ≠ [] := by decide
  exact ⟨first, fun folder _ => by simp [namedPlaceholder_eq]⟩

/-- A text with the placeholders of some folders filled in: the default one first, then the named
ones in the order of the folders. -/
def Filled (text : String) : Prop :=
  Text.Passes (placeholders defaultFolder folders) raw.toList text.toList

theorem filled_iff (text : String) :
    Filled defaultFolder folders raw text ↔ substitute defaultFolder folders raw = text := by
  rw [Filled, Text.passes_iff_foldl (placeholders_filled defaultFolder folders),
    foldl_placeholders, substitute, ← String.toList_inj, String.toList_ofList]

/-- The path that a text means: the normal form that leads where the text with its placeholders
filled in does, when it starts at the default folder and that at the working folder. -/
structure Means (p : Path) : Prop where
  normal : p.IsNormal
  leads : ∃ text, Filled defaultFolder folders raw text ∧ ∀ base,
    Path.reach base p =
      Path.reach (Path.reach (Path.reach base workingFolder) defaultFolder) ⟨text⟩

theorem isNormal_resolve : (resolve workingFolder defaultFolder folders raw).IsNormal := by
  unfold resolve
  exact Path.isNormal_normalize _

variable {defaultFolder} in
theorem reach_resolve (filled : defaultFolder.bytes ≠ []) (base : List FileName) :
    Path.reach base (resolve workingFolder defaultFolder folders raw) =
      Path.reach (Path.reach (Path.reach base workingFolder) defaultFolder)
        ⟨substitute defaultFolder folders raw⟩ := by
  rw [resolve, Path.reach_normalize,
    Path.reach_absolute? base workingFolder (Path.join_filled filled _), Path.reach_join]

variable {defaultFolder} in
theorem means_iff (filled : defaultFolder.bytes ≠ []) (p : Path) :
    Means workingFolder defaultFolder folders raw p ↔
      resolve workingFolder defaultFolder folders raw = p := by
  constructor
  · rintro ⟨normal, text, substituted, leads⟩
    obtain rfl := (filled_iff defaultFolder folders raw text).mp substituted
    have same : (resolve workingFolder defaultFolder folders raw).normalize = p.normalize := by
      refine Path.normalize_eq_of_reach fun base _ => ?_
      rw [reach_resolve workingFolder folders raw filled, leads]
    exact (isNormal_resolve workingFolder defaultFolder folders raw).symm.trans (same.trans normal)
  · rintro rfl
    exact ⟨isNormal_resolve workingFolder defaultFolder folders raw, _,
      (filled_iff defaultFolder folders raw _).mpr rfl,
      reach_resolve workingFolder folders raw filled⟩

end Workspace

end LintReport
