import LintReport.Analyzer
import LintReport.Json.Sorted

set_option autoImplicit false

/- What the command prints when all runs are over. It depends on the events of the
runs alone: reports come in the order of their paths, whichever run ended first. -/
namespace LintReport.Command

/-- What a command wrote, message by message for the error stream, and its exit
status. What the system says of a program that breaks down is no message. -/
structure Output where
  stdout : String
  stderr : List String
  status : Nat
  deriving DecidableEq, Repr

def line (s : List Char) : List Char := s ++ ['\n']

def complaint (message : String) : String := "tidyscan: " ++ message

/-- The reports among the events, by path. -/
def reportsOf (events : List Event) : List Report :=
  (events.filterMap fun
    | .completed report => some report
    | .failed _ _ => none).mergeSort fun a b =>
      decide (a.document.path.compare b.document.path ≠ .gt)

def failureMessage? : Event → Option String
  | .completed _ => none
  | .failed path e => some (complaint (path.text ++ ": " ++ e.message))

def errorCount (reports : List Report) : Nat :=
  reports.foldr (fun r n => r.diagnostics.errorCount + n) 0

def warningCount (reports : List Report) : Nat :=
  reports.foldr (fun r n => r.diagnostics.warningCount + n) 0

def counted (n : Nat) (noun : String) : List Char :=
  Text.decimal n ++ ' ' :: noun.toList ++ (if n = 1 then [] else ['s'])

def summary (reports : List Report) : List Char :=
  counted reports.length "file" ++ " analyzed: ".toList ++
    counted (errorCount reports) "error" ++ ", ".toList ++
    counted (warningCount reports) "warning"

def plainLines (r : Report) : List Char :=
  r.diagnostics.files.entries.flatMap fun e =>
    e.2.flatMap fun d => line (d.display e.1).toList

def plain (reports : List Report) : List Char :=
  reports.flatMap plainLines ++ line (summary reports)

/-- A report as a record, its members in the order of their names; `none` when one of
its paths is not UTF-8. -/
def reportJson? (r : Report) : Option Json := do
  let document ← r.document.path.text?
  let diagnostics ← r.diagnostics.toJson?
  some (Json.sorted (.record [
    ("document", .text document),
    ("language", .text r.document.language),
    ("diagnostics", diagnostics)]))

/-- A record on each line, up to the first report that has none. -/
def records : List Report → List Char
  | [] => []
  | r :: rest =>
      match reportJson? r with
      | some j => line j.render ++ records rest
      | none => []

/-- The exit status of a program that breaks down. -/
def brokenStatus : Nat := 101

/-- Two when a run failed, else one when an error was reported. -/
def status (events : List Event) : Nat :=
  if events.any fun e => (failureMessage? e).isSome then 2
  else if errorCount (reportsOf events) > 0 then 1
  else 0

/-- What the command prints after some events. It breaks down at a report that has no
record when records are asked for. -/
def conclude (json : Bool) (events : List Event) : Output :=
  let reports := reportsOf events
  { stdout := String.ofList (if json then records reports else plain reports)
    stderr := events.filterMap failureMessage?
    status := if json && reports.any fun r => (reportJson? r).isNone then brokenStatus
      else status events }

end LintReport.Command
