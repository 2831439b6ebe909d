import LintReport.Replacement.Token
import LintReport.Severity

set_option autoImplicit false

/- Diagnostics: what the analyzer says about one place of one file. -/
namespace LintReport

structure Diagnostic where
  range : Range
  severity : Severity
  message : String
  /-- The suggested replacements, encoded. -/
  fix : Option String
  deriving DecidableEq, Repr

namespace Diagnostic

def source : String := "clang-tidy"

def withReplacements (d : Diagnostic) (rs : List Replacement) : Diagnostic :=
  { d with fix := if rs.isEmpty then none else some (Replacement.encode rs) }

/-- The replacements attached; `none` for a token that cannot be read. -/
def replacements? (d : Diagnostic) : Option (List Replacement) :=
  match d.fix with
  | none => some []
  | some token => Replacement.decode? token

/-- One line as compilers print it, with line and column counted from one. -/
def display (d : Diagnostic) (path : Path) : String :=
  String.ofList (path.text.toList ++
    ':' :: Text.decimal (d.range.start.line + 1).toNat ++
    ':' :: Text.decimal (d.range.start.character + 1).toNat ++
    ':' :: ' ' :: d.severity.label.toList ++
    ':' :: ' ' :: '[' :: source.toList ++
    ']' :: ' ' :: d.message.toList)

def toJson (d : Diagnostic) : Json :=
  .record ([("range", d.range.toJson), ("severity", .text d.severity.label),
    ("message", .text d.message), ("source", .text source)] ++
    (d.fix.map fun token => ("fix", .text token)).toList)

end Diagnostic

end LintReport
