import LintReport.Proofs.Fallback.Associations
import LintReport.Proofs.Disk.Walk
import LintReport.Proofs.Path.Extension

set_option autoImplicit false

/- The runs that a call with a second try makes. There is a second one only when the first
reported nothing and an alternate could be read, and how the call ends follows from the two. -/
namespace LintReport

/-- A run that the analyzer is asked for: a document, and the world that it starts in. -/
structure Run where
  analyzer : Analyzer
  document : Document
  world : World

namespace Run

def result (r : Run) : Except RunError Report := (r.analyzer.analyze r.document r.world).1

/-- The world after the run. -/
def after (r : Run) : World := (r.analyzer.analyze r.document r.world).2

theorem analyze_eq (r : Run) : r.analyzer.analyze r.document r.world = (r.result, r.after) := rfl

end Run

theorem toOption_eq_some_iff {ε α : Type} {x : Except ε α} {a : α} :
    x.toOption = some a ↔ x = .ok a := by
  cases x <;> simp [Except.toOption]

/-- The world after its files were changed. -/
def World.changed (w : World) (change : Disk → Disk) : World := { w with disk := change w.disk }

namespace Fallback

open LintReport.Path (Same)

variable {known : Associations}

theorem isExtension_of_mem {e : List UInt8} (member : e ∈ sourceExtensions) : Path.IsExtension e := by
  simp only [sourceExtensions, List.mem_cons, List.not_mem_nil, or_false] at member
  rcases member with rfl | rfl | rfl <;> exact ⟨by decide +kernel, by decide +kernel⟩

/-- A sibling is another file. -/
theorem other_of_sibling? {disk : Disk} {path sibling : Path} (normal : path.IsNormal)
    (found : sibling? disk path = some sibling) : sibling.IsNormal ∧ ¬ Same sibling path := by
  unfold sibling? at found
  split at found
  · cases found
  · next noSource =>
      have there : disk.isFile sibling = true := List.find?_some found
      obtain ⟨e, member, rfl⟩ := List.mem_map.mp (List.mem_of_find?_eq_some found)
      cases named : path.fileName with
      | none =>
          rw [Path.withExtension, named] at there
          rw [disk.isFile_of_fileName_none named] at there
          cases there
      | some n =>
          obtain ⟨normal', changed⟩ :=
            Path.isNormal_withExtension normal named (isExtension_of_mem member)
          refine ⟨normal', fun same => noSource ?_⟩
          rw [changed same, Option.any_some]
          simpa using member

/-- An alternate is another file. -/
theorem other_of_alternate? {disk : Disk} {path alternate : Path} (valid : known.Valid)
    (normal : path.IsNormal) (found : alternate? known disk path = some alternate) :
    alternate.IsNormal ∧ ¬ Same alternate path := by
  unfold alternate? at found
  split at found
  · next source learned =>
      split at found
      · exact other_of_sibling? normal found
      · next other =>
          cases found
          exact ⟨valid.normal path alternate learned, other⟩
  · exact other_of_sibling? normal found

/-- What happens to the files during a call besides its runs: before an alternate is looked for,
before it is read, and before it is analyzed. -/
structure Meanwhile where
  beforeLookup : Disk → Disk
  beforeReading : Disk → Disk
  beforeRetry : Disk → Disk

def Meanwhile.still : Meanwhile := ⟨id, id, id⟩

/-- A call: the analyzer, the document as it is handed over, the world that the call starts in,
and what happens to the files meanwhile. -/
structure Call where
  analyzer : Analyzer
  path : Path
  language : String
  version : Int
  content : List UInt8
  world : World
  changes : Meanwhile

namespace Call

variable (call : Call) (known : Associations)

def document : Document :=
  Document.ofContent call.path call.language call.version call.content

def first : Run := ⟨call.analyzer, call.document, call.world⟩

theorem isNormal_document : call.document.path.IsNormal :=
  Document.isNormal_ofContent call.path call.language call.version call.content

/-- The world in which an alternate is looked for. -/
def atLookup : World := call.first.after.changed call.changes.beforeLookup

/-- The world in which the alternate is read. -/
def atReading : World := call.atLookup.changed call.changes.beforeReading

/-- The run of an alternate. -/
def runOf (alternate : Document) : Run :=
  ⟨call.analyzer, alternate, call.atReading.changed call.changes.beforeRetry⟩

/-- Where the call leads when `known` is associated. -/
def outcome : Outcome :=
  match call.first.result with
  | .error e => ⟨.error e, known, call.first.after⟩
  | .ok report =>
      let known := known.record report
      if report.total > 0 then ⟨.ok report, known, call.first.after⟩
      else
        match alternate? known call.atLookup.disk call.document.path with
        | none => ⟨.ok report, known, call.atLookup⟩
        | some path =>
            match Document.read call.atReading.disk path call.document.language with
            | .error _ => ⟨.ok report, known, call.atReading⟩
            | .ok d => retry call.analyzer call.document report known d (call.runOf d).world

/-- A call during which nothing else changes the files is one that is made. -/
theorem outcome_of_still (still : call.changes = .still) :
    call.outcome known = analyze call.analyzer call.document known call.world := by
  have ran : call.analyzer.analyze call.document call.world =
    (call.first.result, call.first.after) := call.first.analyze_eq
  have lookup : call.atLookup = call.first.after := by rw [atLookup, still]; rfl
  have reading : call.atReading = call.first.after := by rw [atReading, lookup, still]; rfl
  have later (d : Document) : (call.runOf d).world = call.first.after := by
    rw [runOf, reading, still]
    rfl
  rw [analyze, ran, outcome, lookup, reading]
  simp only [later]
  cases call.first.result <;> rfl

/-- The second run of a call. There is one when the first reported nothing, and an alternate was
found and could be read. -/
structure Follows (second : Run) : Prop where
  clean : ∃ report, call.first.result = .ok report ∧ report.total = 0 ∧
    ∃ path, alternate? (known.record report) call.atLookup.disk call.document.path = some path ∧
      Document.read call.atReading.disk path call.document.language = .ok second.document
  same : second = call.runOf second.document

def second? : Option Run :=
  call.first.result.toOption.bind fun report =>
    if report.total > 0 then none
    else (alternate? (known.record report) call.atLookup.disk call.document.path).bind fun path =>
      (Document.read call.atReading.disk path call.document.language).toOption.map call.runOf

/-- How a call can go, and where it leads. -/
inductive Course : Outcome → Prop
  | failed {e : RunError} (broken : call.first.result = .error e) :
      Course ⟨.error e, known, call.first.after⟩
  | alone {report : Report} {w : World} (completed : call.first.result = .ok report)
      (last : call.second? known = none) (started : w.started = call.first.after.started) :
      Course ⟨.ok report, known.record report, w⟩
  | retryFailed {report : Report} {second : Run} {e : RunError}
      (completed : call.first.result = .ok report) (next : call.second? known = some second)
      (broken : second.result = .error e) :
      Course ⟨.ok report, known.record report, second.after⟩
  | retried {report retry : Report} {second : Run}
      (completed : call.first.result = .ok report) (next : call.second? known = some second)
      (completed' : second.result = .ok retry) :
      Course ⟨.ok (retry.ensureEntry call.document.path),
        (known.record report).record retry, second.after⟩

variable {call known}

theorem second?_eq_some_iff {second : Run} :
    call.second? known = some second ↔ call.Follows known second := by
  constructor
  · intro next
    obtain ⟨report, completed, next⟩ := Option.bind_eq_some_iff.mp next
    split at next
    · cases next
    · next clean =>
        obtain ⟨path, found, next⟩ := Option.bind_eq_some_iff.mp next
        obtain ⟨d, read, rfl⟩ := Option.map_eq_some_iff.mp next
        exact ⟨⟨report, toOption_eq_some_iff.mp completed, by omega, path, found,
          toOption_eq_some_iff.mp read⟩, rfl⟩
  · rintro ⟨⟨report, completed, clean, path, found, read⟩, same⟩
    refine Option.bind_eq_some_iff.mpr ⟨report, toOption_eq_some_iff.mpr completed, ?_⟩
    rw [if_neg (by omega)]
    refine Option.bind_eq_some_iff.mpr ⟨path, found, ?_⟩
    exact Option.map_eq_some_iff.mpr ⟨second.document, toOption_eq_some_iff.mpr read, same.symm⟩

theorem second?_of_error {e : RunError} (broken : call.first.result = .error e) :
    call.second? known = none := by
  rw [second?, broken]
  rfl

variable (call known)

theorem course_outcome : call.Course known (call.outcome known) := by
  unfold outcome
  cases completed : call.first.result with
  | error e => exact .failed completed
  | ok report =>
      have next : call.second? known = if report.total > 0 then none
          else (alternate? (known.record report) call.atLookup.disk call.document.path).bind
            fun path => (Document.read call.atReading.disk path
              call.document.language).toOption.map call.runOf := by
        rw [second?, completed]
        rfl
      -- The cases of the second run, in the order in which a call comes to them.
      dsimp only
      split
      · next some => exact .alone completed (next.trans (if_pos some)) rfl
      · next clean =>
          rw [if_neg clean] at next
          split
          · next none =>
              rw [none] at next
              exact .alone completed next rfl
          · next path found =>
              rw [found, Option.bind_some] at next
              split
              · next e unread =>
                  rw [unread] at next
                  exact .alone completed next rfl
              · next d read =>
                  rw [read] at next
                  have ran : call.analyzer.analyze d (call.runOf d).world =
                    ((call.runOf d).result, (call.runOf d).after) := rfl
                  rw [retry, ran]
                  cases completed' : (call.runOf d).result with
                  | error e => exact .retryFailed completed next completed'
                  | ok retry => exact .retried completed next completed'

end Call

end Fallback

end LintReport
