import LintReport.Position
import LintReport.Severity
import LintReport.Text.Decimal
import LintReport.Text.Lines
import LintReport.Text.Search

set_option autoImplicit false

/- Messages as compilers print them: a header line with path, line, column,
severity and text, and two lines that show the source. -/
namespace LintReport

structure CompilerMessage where
  path : String
  position : Position
  severity : String
  message : String
  deriving DecidableEq, Repr

namespace CompilerMessage

def leadingNumber? (s : List Char) : Option (UInt32 × List Char) :=
  match Text.number? 10 (s.takeWhile Text.isDigit) with
  | some n => if n < UInt32.size then some (n.toUInt32, s.dropWhile Text.isDigit) else none
  | none => none

/-- `:<line>:<column>: ` at the front of a text, and what follows it. -/
def location? : List Char → Option ((UInt32 × UInt32) × List Char)
  | ':' :: s =>
      match leadingNumber? s with
      | some (line, ':' :: s) =>
          match leadingNumber? s with
          | some (column, ':' :: ' ' :: rest) => some ((line, column), rest)
          | _ => none
      | _ => none
  | _ => none

/-- Cuts a line at its first location that has something in front of it. -/
def splitLocation : List Char → Option (List Char × (UInt32 × UInt32) × List Char)
  | [] => none
  | c :: rest =>
      match location? rest with
      | some (place, left) => some ([c], place, left)
      | none => (splitLocation rest).map fun p => (c :: p.1, p.2)

/-- The message that a header line announces. The text behind the location must
name a severity and have another colon. -/
def ofHeader? (line : List Char) : Option CompilerMessage :=
  match splitLocation line with
  | none => none
  | some (path, (row, column), rest) =>
      match Text.splitFirst ':' rest with
      | none => none
      | some (word, message) =>
          if (Text.trim word).isEmpty then none
          else some {
            path := String.ofList path
            position := Position.ofOneBased row column
            severity := String.ofList (Text.trim word)
            message := String.ofList (Text.trim message) }

/-- The messages of some lines. A header counts only with its two source lines,
which are not read as headers themselves. -/
def ofLines : List (List Char) → List CompilerMessage
  | header :: first :: second :: rest =>
      match ofHeader? header with
      | some m => m :: ofLines rest
      | none => ofLines (first :: second :: rest)
  | _ => []

def scan (text : List Char) : List CompilerMessage := ofLines (Text.lines text)

def errors (text : List Char) : List CompilerMessage :=
  (scan text).filter fun m => Severity.classify m.severity = .error

end CompilerMessage

end LintReport
