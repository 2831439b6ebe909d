import LintReport.Disk
import LintReport.Invocation

set_option autoImplicit false

/- Starting programs. What a started program does is a parameter: it may depend on
everything that was started before it, and it may change the files. -/
namespace LintReport

structure Start where
  program : Path
  args : List String
  deriving DecidableEq, Repr

inductive StartError where
  | missingInterpreter
  | wrongFormat
  | nulByte
  | notPermitted
  deriving DecidableEq, Repr

namespace StartError

def message : StartError → String
  | .missingInterpreter => "No such file or directory (os error 2)"
  | .wrongFormat => "Exec format error (os error 8)"
  | .nulByte => "nul byte found in provided data"
  | .notPermitted => "Operation not permitted (os error 1)"

end StartError

/-- How a start ends: refused, or after some time, with what was written or with the
reason why that could not be read. -/
inductive Ending where
  | refused (reason : StartError)
  | finished (milliseconds : Nat) (out err : List UInt8)
  | lost (milliseconds : Nat) (reason : String)
  deriving DecidableEq, Repr

inductive RunError where
  | notFound (executable : String)
  | notStarted (executable : String) (reason : StartError)
  | unread (reason : String)
  | overdue (executable : String) (seconds : UInt64)
  deriving DecidableEq, Repr

namespace RunError

def message : RunError → String
  | .notFound executable =>
      "analyzer executable '" ++ executable ++ "' not found: cannot find binary path"
  | .notStarted executable reason =>
      "failed to spawn '" ++ executable ++ "': " ++ reason.message
  | .unread reason => "failed to read analyzer output: " ++ reason
  | .overdue executable seconds =>
      "'" ++ executable ++ "' did not finish within " ++
        String.ofList (Text.decimal seconds.toNat) ++ "s"

end RunError

structure World where
  disk : Disk
  started : List Start
  deriving Repr

/-- Where programs are looked for, and what they do. -/
structure Host where
  searchPath : List Path
  respond : (history : List Start) → Disk → Start → Ending × Disk

namespace Host

/-- A path behind the working folder; dots in front of it are left out. -/
def anchored (folder p : Path) : Path :=
  if p.isAbsolute then p
  else folder.join (Path.ofParts (p.parts.dropWhile fun part => part = .current))

def candidates (h : Host) (disk : Disk) (program : Path) : List Path :=
  if program.parts.length > 1 then [anchored disk.workingFolder program]
  else h.searchPath.map fun folder => folder.join program

def findProgram? (h : Host) (disk : Disk) (program : Path) : Option Path :=
  (h.candidates disk program).find? disk.isRunnable

/-- Starts a program. Its arguments can hold no zero bytes. -/
def start (h : Host) (w : World) (s : Start) : Ending × World :=
  if s.args.any fun arg => arg.toList.contains '\x00' then (.refused .nulByte, w)
  else
    let r := h.respond w.started w.disk s
    (r.1, ⟨r.2, s :: w.started⟩)

/-- The text that a program wrote. With `merge` its error stream follows on a line of
its own. -/
def captured (merge : Bool) (out err : List UInt8) : List Char :=
  let text := Utf8.decodeLossy out
  if merge && !err.isEmpty then
    text ++ (if text.getLast?.any (· ≠ '\n') then ['\n'] else []) ++ Utf8.decodeLossy err
  else text

def isOverdue (milliseconds : Nat) (seconds : UInt64) : Bool :=
  seconds.toNat * 1000 < milliseconds

/-- The result of a start that lasted some time: a limit that has passed comes first. -/
def within (limit : Option UInt64) (program : String) (milliseconds : Nat)
    (result : Except RunError (List Char)) : Except RunError (List Char) :=
  match limit.filter (isOverdue milliseconds) with
  | some seconds => .error (.overdue program seconds)
  | none => result

def collected (merge : Bool) (limit : Option UInt64) (program : String) :
    Ending → Except RunError (List Char)
  | .refused reason => .error (.notStarted program reason)
  | .finished milliseconds out err =>
      within limit program milliseconds (.ok (captured merge out err))
  | .lost milliseconds reason => within limit program milliseconds (.error (.unread reason))

def run (h : Host) (merge : Bool) (limit : Option UInt64) (i : Invocation) (w : World) :
    Except RunError (List Char) × World :=
  match h.findProgram? w.disk ⟨i.program⟩ with
  | none => (.error (.notFound i.program), w)
  | some program =>
      let r := h.start w ⟨program, i.args⟩
      (collected merge limit i.program r.1, r.2)

@[simp] theorem captured_false (out err : List UInt8) :
    captured false out err = Utf8.decodeLossy out := by
  simp [captured]

theorem run_of_notFound {h : Host} {i : Invocation} {w : World} (merge : Bool)
    (limit : Option UInt64) (hf : h.findProgram? w.disk ⟨i.program⟩ = none) :
    h.run merge limit i w = (.error (.notFound i.program), w) := by
  simp [run, hf]

end Host

end LintReport
