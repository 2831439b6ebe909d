import LintReport.Text.Blank

set_option autoImplicit false

/- How bad a diagnostic is. -/
namespace LintReport

inductive Severity where
  | error
  | warning
  deriving DecidableEq, Repr

namespace Severity

/-- The severity that a word or a rule name stands for: an error when it ends in
`error`, blanks behind it aside, and a warning otherwise. -/
def classify (word : String) : Severity :=
  if "error".toList.isSuffixOf (Text.trimEnd word.toList) then .error else .warning

def label : Severity → String
  | .error => "error"
  | .warning => "warning"

@[simp] theorem classify_label (s : Severity) : classify s.label = s := by
  cases s <;> decide

end Severity

end LintReport
