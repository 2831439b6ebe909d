import LintReport.Proofs.Diagnostic.Fix
import LintReport.Proofs.Diagnostic.Map
import LintReport.Proofs.Report.Anew
import Mathlib.Data.List.Forall2

set_option autoImplicit false

/- What a report holds. Both passes push diagnostics under the paths that the policy allows,
so the diagnostics of a file are those of the messages and findings about it, in the order of
the output, and nothing else. -/
namespace LintReport

open LintReport.Path (Same IsNormal)

namespace Report

open DiagnosticMap (located)

def errorDiagnostic (message : CompilerMessage) : Diagnostic :=
  ⟨Range.point message.position, .error, message.message, none⟩

/-- Where a finding is reported. Those that the compiler reports have no place. -/
def placeOf? (policy : PathPolicy) (f : Finding) : Option Path :=
  if Severity.classify f.rule = .error then none else policy.resolve? f.filePath

/-- The messages about a file. -/
def errorsAt (policy : PathPolicy) (p : Path) (messages : List CompilerMessage) :
    List CompilerMessage :=
  messages.filter fun message => decide (policy.resolve? message.path = some p)

/-- The findings about a file, without those that the compiler reports. -/
def findingsAt (policy : PathPolicy) (p : Path) (findings : List Finding) : List Finding :=
  findings.filter fun f =>
    decide (Severity.classify f.rule ≠ .error ∧ policy.resolve? f.filePath = some p)

theorem placeOf?_eq_some {policy : PathPolicy} {f : Finding} {p : Path} :
    placeOf? policy f = some p ↔
      Severity.classify f.rule ≠ .error ∧ policy.resolve? f.filePath = some p := by
  unfold placeOf?
  split
  · next left => simp [left]
  · next kept => simp [kept]

variable (policy : PathPolicy) (disk : Disk) (document : Document)

/-- All diagnostics of a run, in the order in which they are added. -/
def entries (output : List Char) : List (Path × Diagnostic) :=
  located (fun message => policy.resolve? message.path) (fun _ => errorDiagnostic)
      (CompilerMessage.errors output) ++
    located (placeOf? policy) (warningAnew policy disk document) (Finding.scan output)

theorem foldl_addError (messages : List CompilerMessage) (m : DiagnosticMap) :
    messages.foldl (addError policy) m =
      m.pushAll (located (fun message => policy.resolve? message.path) (fun _ => errorDiagnostic)
        messages) := by
  refine DiagnosticMap.foldl_eq_pushAll ?_ ?_ messages m
  · intro m message rejected
    exact addError_of_rejected m rejected
  · intro m message p kept
    simp only [addError, kept, errorDiagnostic]

theorem foldl_addFindingAnew (findings : List Finding) (m : DiagnosticMap) :
    findings.foldl (addFindingAnew policy disk document) m =
      m.pushAll (located (placeOf? policy) (warningAnew policy disk document) findings) := by
  refine DiagnosticMap.foldl_eq_pushAll ?_ ?_ findings m
  · intro m f none
    unfold placeOf? at none
    unfold addFindingAnew
    split
    · rfl
    · next kept =>
        rw [if_neg kept] at none
        rw [none]
  · intro m f p place
    obtain ⟨kept, resolved⟩ := placeOf?_eq_some.mp place
    simp only [addFindingAnew, if_neg kept, resolved]

variable {document}

theorem collate_eq_pushAll (profile : Profile) (normal : document.path.IsNormal)
    (output : List Char) :
    collate profile disk document output = (DiagnosticMap.ofPrimary document.path).pushAll
      (entries (.ofProfile profile document.path) disk document output) := by
  rw [collate_eq_collateAnew profile disk normal, collateAnew, foldl_addError,
    foldl_addFindingAnew, entries, DiagnosticMap.pushAll_append]

variable {policy}

theorem isNormal_of_mem_entries (normal : policy.primary.IsNormal) {output : List Char}
    {e : Path × Diagnostic} (member : e ∈ entries policy disk document output) :
    e.1.IsNormal := by
  rcases List.mem_append.mp member with error | warning
  · obtain ⟨message, _, resolved⟩ :=
      (DiagnosticMap.exists_mem_located _ e.1).mp ⟨e, error, rfl⟩
    exact PathPolicy.isNormal_of_resolve? normal resolved
  · obtain ⟨f, _, place⟩ := (DiagnosticMap.exists_mem_located _ e.1).mp ⟨e, warning, rfl⟩
    exact PathPolicy.isNormal_of_resolve? normal (placeOf?_eq_some.mp place).2

theorem isNormal_primary (profile : Profile) (normal : document.path.IsNormal) :
    (PathPolicy.ofProfile profile document.path).primary.IsNormal := normal

/-- The diagnostics of a file: first the errors, then the warnings. -/
theorem getD_get?_collate (profile : Profile) (normal : document.path.IsNormal)
    (output : List Char) {p : Path} (normal' : p.IsNormal) :
    ((collate profile disk document output).get? p).getD [] =
      (errorsAt (.ofProfile profile document.path) p (CompilerMessage.errors output)).map
          errorDiagnostic ++
        (findingsAt (.ofProfile profile document.path) p (Finding.scan output)).map
          (warningAnew (.ofProfile profile document.path) disk document p) := by
  have spelled : ∀ e ∈ entries (.ofProfile profile document.path) disk document output,
      decide (Same e.1 p) = decide (e.1 = p) := by
    intro e member
    have here := isNormal_of_mem_entries disk (isNormal_primary profile normal) member
    exact decide_eq_decide.mpr ⟨IsNormal.eq_of_same here normal', congrArg Path.parts⟩
  have retained : (Finding.scan output).filter
      (fun f => decide (placeOf? (.ofProfile profile document.path) f = some p)) =
      findingsAt (.ofProfile profile document.path) p (Finding.scan output) :=
    List.filter_congr fun f _ => decide_eq_decide.mpr placeOf?_eq_some
  rw [collate_eq_pushAll disk profile normal,
    DiagnosticMap.getD_get?_pushAll (DiagnosticMap.wellFormed_ofPrimary _),
    DiagnosticMap.getD_get?_ofPrimary, List.nil_append, List.filter_congr spelled, entries,
    List.filter_append, List.map_append, DiagnosticMap.filter_located,
    DiagnosticMap.filter_located, retained, errorsAt]

/-- The warnings of a file are those for the findings about it. -/
theorem filter_warning_collate (profile : Profile) (normal : document.path.IsNormal)
    (output : List Char) {p : Path} (normal' : p.IsNormal) :
    (((collate profile disk document output).get? p).getD []).filter
        (fun d => decide (d.severity = .warning)) =
      (findingsAt (.ofProfile profile document.path) p (Finding.scan output)).map
        (warningAnew (.ofProfile profile document.path) disk document p) := by
  rw [getD_get?_collate disk profile normal output normal', List.filter_append,
    List.filter_eq_nil_iff.mpr, List.nil_append, List.filter_eq_self]
  · intro d made
    obtain ⟨f, _, rfl⟩ := List.mem_map.mp made
    rfl
  · intro d made
    obtain ⟨message, _, rfl⟩ := List.mem_map.mp made
    simp [errorDiagnostic]

theorem mem_paths_collate (profile : Profile) (normal : document.path.IsNormal)
    (output : List Char) (p : Path) :
    p ∈ (collate profile disk document output).paths ↔ p = document.path ∨
      (∃ message ∈ CompilerMessage.errors output,
        (PathPolicy.ofProfile profile document.path).resolve? message.path = some p) ∨
      ∃ f ∈ Finding.scan output, Severity.classify f.rule ≠ .error ∧
        (PathPolicy.ofProfile profile document.path).resolve? f.filePath = some p := by
  have first : ∀ q ∈ (DiagnosticMap.ofPrimary document.path).paths, q.IsNormal := by
    intro q member
    rw [DiagnosticMap.paths_ofPrimary, List.mem_singleton] at member
    exact member ▸ normal
  rw [collate_eq_pushAll disk profile normal,
    DiagnosticMap.mem_paths_pushAll (DiagnosticMap.wellFormed_ofPrimary _) first _
      fun e member => isNormal_of_mem_entries disk (isNormal_primary profile normal) member,
    DiagnosticMap.paths_ofPrimary, List.mem_singleton, entries]
  simp only [List.mem_append, or_and_right, exists_or, DiagnosticMap.exists_mem_located,
    placeOf?_eq_some]

theorem isNormal_of_mem_paths (profile : Profile) (normal : document.path.IsNormal)
    {output : List Char} {p : Path} (member : p ∈ (collate profile disk document output).paths) :
    p.IsNormal := by
  rcases (mem_paths_collate disk profile normal output p).mp member with
    rfl | ⟨message, _, resolved⟩ | ⟨f, _, _, resolved⟩
  · exact normal
  · exact PathPolicy.isNormal_of_resolve? (isNormal_primary profile normal) resolved
  · exact PathPolicy.isNormal_of_resolve? (isNormal_primary profile normal) resolved

theorem wellFormed_collate (profile : Profile) (normal : document.path.IsNormal)
    (output : List Char) : (collate profile disk document output).WellFormed := by
  rw [collate_eq_pushAll disk profile normal]
  exact DiagnosticMap.wellFormed_pushAll (DiagnosticMap.wellFormed_ofPrimary _) _

/-- Nothing is lost, invented, counted twice or moved. The files are that of the document
and those that some message or finding is about, in strict order. Under each lie the errors
about it and behind them the warnings, both in the order of the output. -/
theorem collate_exact (profile : Profile) (disk : Disk) (path : Path) (language : String)
    (version : Int) (content : List UInt8) (output : List Char) :
    let document := Document.ofContent path language version content
    let policy := PathPolicy.ofProfile profile document.path
    let result := collate profile disk document output
    (∀ p, p ∈ result.paths ↔ p = document.path ∨
      (∃ message ∈ CompilerMessage.errors output, policy.resolve? message.path = some p) ∨
      ∃ f ∈ Finding.scan output,
        Severity.classify f.rule ≠ .error ∧ policy.resolve? f.filePath = some p) ∧
    result.paths.Pairwise (fun p q => p.compare q = .lt) ∧
    (∀ p ∈ result.paths, ∃ warnings,
      result.get? p = some ((errorsAt policy p (CompilerMessage.errors output)).map
        errorDiagnostic ++ warnings) ∧
      List.Forall₂ (fun f w => w.severity = .warning ∧
          w.message = f.message ++ " (" ++ f.rule ++ ")")
        (findingsAt policy p (Finding.scan output)) warnings) ∧
    result.total = result.diagnostics.length := by
  intro document policy result
  have normal : document.path.IsNormal := Document.isNormal_ofContent path language version content
  have valid := wellFormed_collate disk profile normal output
  refine ⟨mem_paths_collate disk profile normal output, valid.ordered.keys, ?_, valid.counted⟩
  intro p member
  have normal' := isNormal_of_mem_paths disk profile normal member
  refine ⟨_, (DiagnosticMap.get?_of_mem_paths member).trans
    (congrArg some (getD_get?_collate disk profile normal output normal')), ?_⟩
  rw [List.forall₂_map_right_iff, List.forall₂_same]
  intro f _
  exact ⟨rfl, rfl⟩

/-- A warning that stands where its finding does. Each place is one in the file that it is
about, be it the finding's own or that of a replacement. A path that is not UTF-8 cannot be
written down, and then none of the replacements is. -/
structure Placed (policy : PathPolicy) (disk : Disk) (document : Document) (p : Path)
    (f : Finding) (warning : Diagnostic) : Prop where
  range : warning.range = Range.point
    (positionIn ((document.contentAt? disk p).getD document.content) f.fileOffset.toNat)
  fix : warning.fix = none ↔ f.replacements = []
  replacements : (∀ raw ∈ f.replacements, (policy.absolutize raw.filePath).IsText) →
    warning.replacements? = some (f.replacements.map (replacementAnew policy disk document))
  lost : (∃ raw ∈ f.replacements, ¬ (policy.absolutize raw.filePath).IsText) →
    warning.fix = some "[]" ∧ warning.replacements? = some []

theorem placed_warningAnew (p : Path) (f : Finding) :
    Placed policy disk document p f (warningAnew policy disk document p f) := by
  refine ⟨rfl, ?_, fun texts => ?_, ?_⟩
  · rw [warningAnew, Diagnostic.fix_withReplacements, List.map_eq_nil_iff]
  · exact Diagnostic.replacements?_withReplacements _ (List.forall_mem_map.mpr texts)
  · rintro ⟨raw, member, other⟩
    have token : (warningAnew policy disk document p f).fix = some "[]" :=
      Diagnostic.fix_of_not_isText _ (List.mem_map_of_mem member) other
    rw [Diagnostic.replacements?, token]
    exact ⟨rfl, Replacement.decode?_brackets⟩

end Report

end LintReport
