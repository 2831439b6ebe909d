import LintReport.Proofs.Path.Policy
import LintReport.Proofs.Report.Collate

set_option autoImplicit false

/- The policy for paths is a filter. What it lets through is reported as it would be without any
policy, and of the rest nothing is left but the empty list of the document itself. -/
namespace LintReport

/-- The profile with nothing excluded, neither by a pattern nor by the folders. -/
def Profile.unfiltered (p : Profile) : Profile := { p with excludes := [], workspaceOnly := false }

namespace PathPolicy

variable (policy : PathPolicy) (p : Path)

variable (profile : Profile) (primary : Path)

@[simp] theorem accepts_unfiltered : (ofProfile profile.unfiltered primary).accepts p = true := rfl

@[simp] theorem absolutize_unfiltered (raw : String) :
    (ofProfile profile.unfiltered primary).absolutize raw =
      (ofProfile profile primary).absolutize raw := rfl

/-- What a text means depends on the policy only in whether it may be reported on. -/
theorem resolve?_iff_unfiltered (raw : String) :
    (ofProfile profile primary).resolve? raw = some p ↔
      (ofProfile profile primary).accepts p = true ∧
        (ofProfile profile.unfiltered primary).resolve? raw = some p := by
  rw [resolve?_eq_some, resolve?_eq_some, absolutize_unfiltered, accepts_unfiltered, and_comm]
  simp only [and_true]

end PathPolicy

namespace Report

variable (profile : Profile) (primary p : Path)

/-- Of what is kept of some items, the policy leaves all that is about a file, or nothing. -/
theorem filter_unfiltered {α : Type} (raw : α → String) (keep : α → Prop) [DecidablePred keep]
    (items : List α) :
    items.filter (fun x => decide (keep x ∧
        (PathPolicy.ofProfile profile primary).resolve? (raw x) = some p)) =
      if (PathPolicy.ofProfile profile primary).accepts p = true then
        items.filter fun x => decide (keep x ∧
          (PathPolicy.ofProfile profile.unfiltered primary).resolve? (raw x) = some p)
      else [] := by
  simp only [PathPolicy.resolve?_iff_unfiltered p profile primary]
  split
  · next accepted => simp only [accepted, true_and]
  · next rejected => simp [rejected]

theorem errorsAt_unfiltered (messages : List CompilerMessage) :
    errorsAt (.ofProfile profile primary) p messages =
      if (PathPolicy.ofProfile profile primary).accepts p = true then
        errorsAt (.ofProfile profile.unfiltered primary) p messages
      else [] := by
  have all := filter_unfiltered profile primary p CompilerMessage.path (fun _ => True) messages
  simp only [true_and] at all
  exact all

theorem findingsAt_unfiltered (findings : List Finding) :
    findingsAt (.ofProfile profile primary) p findings =
      if (PathPolicy.ofProfile profile primary).accepts p = true then
        findingsAt (.ofProfile profile.unfiltered primary) p findings
      else [] :=
  filter_unfiltered profile primary p Finding.filePath _ findings

/-- A warning, with its place and its replacements, does not depend on what is let through. -/
theorem warningAnew_unfiltered (disk : Disk) (document : Document) :
    warningAnew (.ofProfile profile.unfiltered primary) disk document p =
      warningAnew (.ofProfile profile primary) disk document p := rfl

variable (disk : Disk) {document : Document} (output : List Char)

/-- The diagnostics of a file are those without any policy, or none. -/
theorem getD_get?_collate_unfiltered (normal : document.path.IsNormal) {p : Path}
    (normal' : p.IsNormal) :
    ((collate profile disk document output).get? p).getD [] =
      if (PathPolicy.ofProfile profile document.path).accepts p = true then
        ((collate profile.unfiltered disk document output).get? p).getD []
      else [] := by
  rw [getD_get?_collate disk profile normal output normal',
    getD_get?_collate disk profile.unfiltered normal output normal', errorsAt_unfiltered,
    findingsAt_unfiltered, warningAnew_unfiltered]
  split <;> rfl

theorem mem_paths_collate_unfiltered (normal : document.path.IsNormal) (p : Path) :
    p ∈ (collate profile disk document output).paths ↔ p = document.path ∨
      (PathPolicy.ofProfile profile document.path).accepts p = true ∧
        p ∈ (collate profile.unfiltered disk document output).paths := by
  have same := PathPolicy.resolve?_iff_unfiltered p profile document.path
  rw [mem_paths_collate disk profile normal, mem_paths_collate disk profile.unfiltered normal]
  simp only [same]
  by_cases accepted : (PathPolicy.ofProfile profile document.path).accepts p = true
  · simp only [accepted, true_and]
    rw [or_iff_right_of_imp Or.inl]
  · simp [accepted]

theorem mem_entries_collate (normal : document.path.IsNormal) (p : Path) (ds : List Diagnostic) :
    (p, ds) ∈ (collate profile disk document output).files.entries ↔
      p ∈ (collate profile disk document output).paths ∧
        ((collate profile disk document output).get? p).getD [] = ds := by
  have ordered := (wellFormed_collate disk profile normal output).ordered
  refine (PathMap.mem_entries_iff ordered p ds).trans (and_congr_right fun member => ?_)
  change (collate profile disk document output).get? p = some ds ↔ _
  rw [DiagnosticMap.get?_of_mem_paths member, Option.some.injEq, Option.getD_some]

/-- Under a path that the policy accepts stands what would stand there without it, the same
diagnostics or no list at all. Under one that it rejects stands no diagnostic, and no list
unless it is the document. So diagnostics stand only under paths that hold no excluded text
and, where the workspace bounds them, lie in one of its folders. -/
theorem collate_filtered (profile : Profile) (disk : Disk) (path : Path) (language : String)
    (version : Int) (content : List UInt8) (output : List Char) :
    let document := Document.ofContent path language version content
    let policy := PathPolicy.ofProfile profile document.path
    let kept := (collate profile disk document output).files.entries
    let all := (collate profile.unfiltered disk document output).files.entries
    (∀ p ds, policy.accepts p = true → ((p, ds) ∈ kept ↔ (p, ds) ∈ all)) ∧
    (∀ p ds, policy.accepts p = false → (p, ds) ∈ kept → p = document.path ∧ ds = []) ∧
    ∀ p ds, (p, ds) ∈ kept → ds ≠ [] →
      (∀ pattern ∈ profile.excludes, pattern ≠ "" → ¬ pattern.toList <:+: p.text.toList) ∧
      (profile.workspaceOnly = true → profile.folders ≠ [] →
        ∃ folder ∈ profile.folders, folder.path.parts <+: p.parts) := by
  intro document policy kept all
  have normal : document.path.IsNormal := Document.isNormal_ofContent path language version content
  have entries := mem_entries_collate profile disk output normal
  have entries' := mem_entries_collate profile.unfiltered disk output normal
  have keys := mem_paths_collate_unfiltered profile disk output normal
  have rejected : ∀ p ds, policy.accepts p = false → (p, ds) ∈ kept →
      p = document.path ∧ ds = [] := by
    intro p ds rejected member
    obtain ⟨key, list⟩ := (entries p ds).mp member
    have here : p = document.path := by simpa [policy, rejected] using (keys p).mp key
    refine ⟨here, ?_⟩
    rw [← list, getD_get?_collate_unfiltered profile disk output normal (here ▸ normal)]
    exact if_neg (by simp [policy, rejected])
  refine ⟨?_, rejected, ?_⟩
  · intro p ds accepted
    have key : p ∈ (collate profile disk document output).paths ↔
        p ∈ (collate profile.unfiltered disk document output).paths := by
      have primary : p = document.path →
          p ∈ (collate profile.unfiltered disk document output).paths :=
        fun here => (mem_paths_collate disk profile.unfiltered normal output p).mpr (Or.inl here)
      rw [keys p, and_iff_right accepted, or_iff_right_of_imp primary]
    rw [entries p ds, entries' p ds, key]
    refine and_congr_right fun member => ?_
    have normal' := isNormal_of_mem_paths disk profile.unfiltered normal member
    rw [getD_get?_collate_unfiltered profile disk output normal normal', if_pos accepted]
  · intro p ds member filled
    refine (policy.accepts_iff p).mp ?_
    by_contra other
    exact filled (rejected p ds (Bool.not_eq_true _ ▸ other) member).2

end Report

end LintReport
