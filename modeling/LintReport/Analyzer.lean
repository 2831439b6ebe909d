import LintReport.Host
import LintReport.Report

set_option autoImplicit false

/- Analyzing one document: the analyzer is called once, and what it wrote becomes a
report. -/
namespace LintReport

structure Analyzer where
  profile : Profile
  host : Host

inductive Event where
  | completed (report : Report)
  | failed (path : Path) (error : RunError)
  deriving DecidableEq, Repr

namespace Event

def ofResult (d : Document) : Except RunError Report → Event
  | .ok report => .completed report
  | .error e => .failed d.path e

end Event

namespace Analyzer

def accepts (a : Analyzer) (d : Document) : Bool := a.profile.accepts d.language

def invocation (a : Analyzer) (d : Document) : Invocation :=
  Invocation.build a.profile d.path d.language

/-- Analyzes a document. In a language that is not analyzed the report is empty, and
nothing is started. -/
def analyze (a : Analyzer) (d : Document) (w : World) : Except RunError Report × World :=
  if a.accepts d then
    match a.host.run a.profile.mergeStderr a.profile.timeoutSecs (a.invocation d) w with
    | (.error e, w) => (.error e, w)
    | (.ok output, w) => (.ok ⟨d, Report.collate a.profile w.disk d output⟩, w)
  else (.ok (Report.empty d), w)

theorem analyze_of_rejected {a : Analyzer} {d : Document} (w : World)
    (h : a.accepts d = false) : a.analyze d w = (.ok (Report.empty d), w) := by
  simp [analyze, h]

end Analyzer

end LintReport
