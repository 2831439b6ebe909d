import LintReport.Proofs.Document.Cache
import LintReport.Report

set_option autoImplicit false

/- A run that reads every file anew for each position that it needs. The run with a cache
is this one: no position depends on what was looked up before. -/
namespace LintReport

open LintReport.Path (IsNormal isNormal_normalize)

theorem PathPolicy.isNormal_absolutize {policy : PathPolicy} (normal : policy.primary.IsNormal)
    (raw : String) : (policy.absolutize raw).IsNormal := by
  unfold absolutize
  split
  · exact normal
  · exact isNormal_normalize _

theorem PathPolicy.isNormal_of_resolve? {policy : PathPolicy} (normal : policy.primary.IsNormal)
    {raw : String} {p : Path} (resolved : policy.resolve? raw = some p) : p.IsNormal := by
  rw [(accepts_of_resolve? resolved).2]
  exact isNormal_absolutize normal raw

/-- The position of an offset in some bytes. -/
def positionIn (content : List UInt8) (offset : Nat) : Position :=
  (LineIndex.ofContent content).positionAt offset

namespace Report

variable (policy : PathPolicy) (disk : Disk) (document : Document)

/-- A replacement with its range in what its own file holds. -/
def replacementAnew (raw : RawReplacement) : Replacement :=
  let path := policy.absolutize raw.filePath
  let stop := min (raw.offset.toNat + raw.length.toNat) Replacement.maxOffset
  let range := (document.contentAt? disk path).map fun content =>
    ⟨positionIn content raw.offset.toNat, positionIn content stop⟩
  ⟨path, raw.offset, raw.length, raw.text, range⟩

/-- The warning for a finding at a path. -/
def warningAnew (path : Path) (f : Finding) : Diagnostic :=
  let content := (document.contentAt? disk path).getD document.content
  let plain : Diagnostic :=
    ⟨Range.point (positionIn content f.fileOffset.toNat), .warning, findingMessage f, none⟩
  plain.withReplacements (f.replacements.map (replacementAnew policy disk document))

def addFindingAnew (m : DiagnosticMap) (f : Finding) : DiagnosticMap :=
  if Severity.classify f.rule = .error then m
  else
    match policy.resolve? f.filePath with
    | none => m
    | some path => m.push path (warningAnew policy disk document path f)

/-- The diagnostics in the output of a run that keeps no file in mind. -/
def collateAnew (profile : Profile) (disk : Disk) (document : Document) (output : List Char) :
    DiagnosticMap :=
  let policy := PathPolicy.ofProfile profile document.path
  let errors := (CompilerMessage.errors output).foldl (addError policy)
    (DiagnosticMap.ofPrimary document.path)
  (Finding.scan output).foldl (addFindingAnew policy disk document) errors

variable {policy disk document}

open DocumentCache (Faithful)

theorem addRange_eq (normal : policy.primary.IsNormal) {cache : DocumentCache}
    (faithful : Faithful document disk cache) (raw : RawReplacement) :
    (addRange policy disk cache raw).1 = replacementAnew policy disk document raw ∧
      Faithful document disk (addRange policy disk cache raw).2 := by
  have found := faithful.load_of_isNormal (PathPolicy.isNormal_absolutize normal raw.filePath)
  have next := (faithful.load (policy.absolutize raw.filePath)).2
  have content := document.map_content_fetch? disk (policy.absolutize raw.filePath)
  unfold addRange replacementAnew
  dsimp only
  rw [← content, ← found]
  split
  · next cache' loaded =>
      rw [loaded] at next ⊢
      exact ⟨rfl, next⟩
  · next d cache' loaded =>
      rw [loaded] at next ⊢
      refine ⟨?_, next⟩
      simp only [Option.map_some, Replacement.toNat_endOffset]
      rfl

theorem addRanges_eq (normal : policy.primary.IsNormal) {cache : DocumentCache}
    (faithful : Faithful document disk cache) (raws : List RawReplacement) :
    (addRanges policy disk cache raws).1 = raws.map (replacementAnew policy disk document) ∧
      Faithful document disk (addRanges policy disk cache raws).2 := by
  induction raws generalizing cache with
  | nil => exact ⟨rfl, faithful⟩
  | cons raw raws ih =>
      obtain ⟨first, next⟩ := addRange_eq normal faithful raw
      obtain ⟨others, last⟩ := ih next
      refine ⟨?_, last⟩
      rw [addRanges, List.map_cons, ← first, ← others]

/-- One finding: the same diagnostics with a cache as without, and the cache stays faithful. -/
theorem addFinding_eq (normal : policy.primary.IsNormal) {cache : DocumentCache}
    (faithful : Faithful document disk cache) (m : DiagnosticMap) (f : Finding) :
    (addFinding policy disk (cache, m) f).2 = addFindingAnew policy disk document m f ∧
      Faithful document disk (addFinding policy disk (cache, m) f).1 := by
  unfold addFinding addFindingAnew
  split
  · exact ⟨rfl, faithful⟩
  · cases resolved : policy.resolve? f.filePath with
    | none => exact ⟨rfl, faithful⟩
    | some path =>
        have found := faithful.load_of_isNormal (PathPolicy.isNormal_of_resolve? normal resolved)
        obtain ⟨ranges, last⟩ := addRanges_eq normal (faithful.load path).2 f.replacements
        refine ⟨?_, last⟩
        dsimp only
        rw [found, ranges, faithful.same, Document.positionAt_getD_fetch?]
        rfl

theorem foldl_addFinding (normal : policy.primary.IsNormal) {cache : DocumentCache}
    (faithful : Faithful document disk cache) (m : DiagnosticMap) (fs : List Finding) :
    (fs.foldl (addFinding policy disk) (cache, m)).2 =
      fs.foldl (addFindingAnew policy disk document) m := by
  induction fs generalizing cache m with
  | nil => rfl
  | cons f fs ih =>
      obtain ⟨added, next⟩ := addFinding_eq normal faithful m f
      rw [List.foldl_cons, List.foldl_cons, ← added]
      generalize addFinding policy disk (cache, m) f = state at next ⊢
      exact ih next state.2

/-- A cache changes nothing. -/
theorem collate_eq_collateAnew (profile : Profile) (disk : Disk) {document : Document}
    (normal : document.path.IsNormal) (output : List Char) :
    collate profile disk document output = collateAnew profile disk document output := by
  have primary : (PathPolicy.ofProfile profile document.path).primary.IsNormal := normal
  have faithful := DocumentCache.faithful_ofPrimary document disk
  unfold collate collateAnew
  exact foldl_addFinding primary faithful _ _

end Report

end LintReport
