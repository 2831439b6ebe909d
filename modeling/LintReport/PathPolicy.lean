import LintReport.Path.Normal
import LintReport.Profile

set_option autoImplicit false

/- What the paths in an analyzer's output mean for one document, and which of them
may be reported on. -/
namespace LintReport

/-- The rules for paths, and the document that relative paths start from. -/
structure PathPolicy where
  excludes : List String
  workspaceOnly : Bool
  folders : List WorkspaceFolder
  primary : Path
  deriving DecidableEq, Repr

namespace PathPolicy

def ofProfile (p : Profile) (primary : Path) : PathPolicy :=
  ⟨p.excludes, p.workspaceOnly, p.folders, primary⟩

def folder (r : PathPolicy) : Path := r.primary.parent.getD ⟨"."⟩

def absolutize (r : PathPolicy) (raw : String) : Path :=
  if raw.isEmpty then r.primary else (r.folder.join ⟨raw⟩).normalize

/-- Whether a pattern is a part of the text of a path; the empty one never is. -/
def isExcluded (r : PathPolicy) (p : Path) : Bool :=
  r.excludes.any fun pattern => !pattern.isEmpty && Text.contains pattern.toList p.text.toList

/-- Whether a path lies in a workspace folder. Without folders every path does. -/
def isInside (r : PathPolicy) (p : Path) : Bool :=
  r.folders.isEmpty || r.folders.any fun f => p.isUnder f.path

def accepts (r : PathPolicy) (p : Path) : Bool :=
  !r.isExcluded p && (!r.workspaceOnly || r.isInside p)

def resolve? (r : PathPolicy) (raw : String) : Option Path :=
  let p := r.absolutize raw
  if r.accepts p then some p else none

theorem accepts_of_resolve? {r : PathPolicy} {raw : String} {p : Path}
    (h : r.resolve? raw = some p) : r.accepts p = true ∧ p = r.absolutize raw := by
  simp only [resolve?] at h
  split at h
  · next ha =>
      simp only [Option.some.injEq] at h
      exact ⟨h ▸ ha, h.symm⟩
  · simp at h

end PathPolicy

end LintReport
