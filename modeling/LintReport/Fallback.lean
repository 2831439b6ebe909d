import LintReport.Analyzer

set_option autoImplicit false

/- A second try for documents without diagnostics. A header is seldom analyzed by
itself; the source that reported on it earlier, or one of the same name beside it,
is analyzed in its place. -/
namespace LintReport

structure Associations where
  sources : PathMap Path
  deriving DecidableEq, Repr

namespace Associations

def empty : Associations := ⟨PathMap.empty⟩

def source? (a : Associations) (path : Path) : Option Path := a.sources.find? path

/-- Learns from a report: each file in it other than its document belongs to that
document from now on. -/
def record (a : Associations) (r : Report) : Associations :=
  let others := r.diagnostics.paths.filter fun p => decide (¬ Path.Same p r.document.path)
  ⟨others.foldl (fun sources p => sources.insert p r.document.path) a.sources⟩

@[simp] theorem source?_empty (path : Path) : empty.source? path = none := rfl

end Associations

namespace Fallback

/-- The extensions of sources, the first ones preferred. -/
def sourceExtensions : List (List UInt8) := ["c", "cpp", "cxx"]

def sibling? (disk : Disk) (path : Path) : Option Path :=
  if path.extension.any sourceExtensions.contains then none
  else (sourceExtensions.map path.withExtension).find? disk.isFile

def alternate? (a : Associations) (disk : Disk) (path : Path) : Option Path :=
  match a.source? path with
  | some source => if Path.Same source path then sibling? disk path else some source
  | none => sibling? disk path

/-- Where a run with a second try leads: its result, what is associated now, and the
world as it is now. -/
structure Outcome where
  result : Except RunError Report
  associations : Associations
  world : World

/-- Analyzes an alternate document for `d`, whose own report is `first`. When that
fails the first report stands. -/
def retry (a : Analyzer) (d : Document) (first : Report) (associations : Associations)
    (alternate : Document) (w : World) : Outcome :=
  match a.analyze alternate w with
  | (.ok report, w) => ⟨.ok (report.ensureEntry d.path), associations.record report, w⟩
  | (.error _, w) => ⟨.ok first, associations, w⟩

/-- Analyzes a document and, when nothing is reported, an alternate once. -/
def analyze (a : Analyzer) (d : Document) (associations : Associations) (w : World) : Outcome :=
  match a.analyze d w with
  | (.error e, w) => ⟨.error e, associations, w⟩
  | (.ok first, w) =>
      let associations := associations.record first
      if first.total > 0 then ⟨.ok first, associations, w⟩
      else
        match alternate? associations w.disk d.path with
        | none => ⟨.ok first, associations, w⟩
        | some path =>
            match Document.read w.disk path d.language with
            | .error _ => ⟨.ok first, associations, w⟩
            | .ok alternate => retry a d first associations alternate w

end Fallback

end LintReport
