import LintReport.Diagnostic.Map
import LintReport.Document.Cache
import LintReport.Output.Finding
import LintReport.Output.Message
import LintReport.PathPolicy

set_option autoImplicit false

/- From the output of an analyzer to diagnostics. Errors come from the messages of
the compiler, all else from the exported findings. Both are kept only where the
policy accepts their path. -/
namespace LintReport

structure Report where
  document : Document
  diagnostics : DiagnosticMap
  deriving DecidableEq, Repr

namespace Report

def total (r : Report) : Nat := r.diagnostics.total

def empty (d : Document) : Report := ⟨d, DiagnosticMap.ofPrimary d.path⟩

def ensureEntry (r : Report) (path : Path) : Report :=
  { r with diagnostics := r.diagnostics.ensureEntry path }

/-- Adds an error of the compiler. -/
def addError (policy : PathPolicy) (m : DiagnosticMap) (message : CompilerMessage) :
    DiagnosticMap :=
  match policy.resolve? message.path with
  | none => m
  | some path => m.push path ⟨Range.point message.position, .error, message.message, none⟩

/-- A replacement with its range, if its file can be read. The range is that of its
own file, which need not be the one the finding is about. -/
def addRange (policy : PathPolicy) (disk : Disk) (cache : DocumentCache)
    (raw : RawReplacement) : Replacement × DocumentCache :=
  let path := policy.absolutize raw.filePath
  let plain : Replacement := ⟨path, raw.offset, raw.length, raw.text, none⟩
  match cache.load disk path with
  | (none, cache) => (plain, cache)
  | (some d, cache) =>
      let range : Range :=
        ⟨d.positionAt plain.offset.toNat, d.positionAt plain.endOffset.toNat⟩
      ({ plain with range := some range }, cache)

def addRanges (policy : PathPolicy) (disk : Disk) (cache : DocumentCache) :
    List RawReplacement → List Replacement × DocumentCache
  | [] => ([], cache)
  | raw :: rest =>
      let first := addRange policy disk cache raw
      let others := addRanges policy disk first.2 rest
      (first.1 :: others.1, others.2)

def findingMessage (f : Finding) : String := f.message ++ " (" ++ f.rule ++ ")"

/-- Adds a finding. Errors are left to the compiler. A finding in a file that cannot
be read gets its position from the document of the run. -/
def addFinding (policy : PathPolicy) (disk : Disk) (state : DocumentCache × DiagnosticMap)
    (f : Finding) : DocumentCache × DiagnosticMap :=
  if Severity.classify f.rule = .error then state
  else
    match policy.resolve? f.filePath with
    | none => state
    | some path =>
        let found := state.1.load disk path
        let target := found.1.getD state.1.primary
        let position := target.positionAt f.fileOffset.toNat
        let replacements := addRanges policy disk found.2 f.replacements
        let plain : Diagnostic := ⟨Range.point position, .warning, findingMessage f, none⟩
        (replacements.2, state.2.push path (plain.withReplacements replacements.1))

/-- The diagnostics in the output of a run. -/
def collate (profile : Profile) (disk : Disk) (document : Document) (output : List Char) :
    DiagnosticMap :=
  let policy := PathPolicy.ofProfile profile document.path
  let errors := (CompilerMessage.errors output).foldl (addError policy)
    (DiagnosticMap.ofPrimary document.path)
  ((Finding.scan output).foldl (addFinding policy disk)
    (DocumentCache.ofPrimary document, errors)).2

theorem addError_of_rejected {policy : PathPolicy} {message : CompilerMessage}
    (m : DiagnosticMap) (h : policy.resolve? message.path = none) :
    addError policy m message = m := by
  simp [addError, h]

end Report

end LintReport
