import LintReport.Proofs.Analyzer.Session
import LintReport.Proofs.Command.Record
import LintReport.Proofs.Diagnostic.Displayed
import LintReport.Proofs.Path.Order

set_option autoImplicit false

/- What is printed when all runs are over. Where no two documents share a path, the order in which
the runs finished shows in the complaints only. -/
namespace LintReport

open scoped List

/-- A list of reports by path has one order. -/
def Report.Sorted (reports : List Report) : Prop :=
  reports.Pairwise fun r r' => r.document.path.compare r'.document.path = .lt

theorem Report.Sorted.eq_of_perm {reports reports' : List Report} (sorted : Sorted reports)
    (sorted' : Sorted reports') (perm : reports.Perm reports') : reports = reports' := by
  apply perm.eq_of_pairwise _ sorted sorted'
  intro r r' _ _ before after
  have round := Path.compare_trans before after
  rw [(Path.compare_eq_iff_same _ _).mpr rfl] at round
  cases round

namespace Outcome

def report? (o : Outcome) : Option Report :=
  match o.result with
  | .ok report => some report
  | .error _ => none

def error? (o : Outcome) : Option RunError :=
  match o.result with
  | .ok _ => none
  | .error e => some e

/-- The reports of the runs that gave one. -/
def reports (outcomes : List Outcome) : List Report := outcomes.filterMap report?

/-- Reports about the documents of their runs come in the order of these. -/
theorem sublist_reports {outcomes : List Outcome}
    (own : ∀ o ∈ outcomes, ∀ r, o.result = .ok r → r.document = o.document) :
    ((reports outcomes).map fun r => r.document.path).Sublist
      (outcomes.map fun o => o.document.path) := by
  induction outcomes with
  | nil => exact .slnil
  | cons o outcomes ih =>
      obtain ⟨first, others⟩ := List.forall_mem_cons.mp own
      cases result : o.result with
      | ok r =>
          have given : o.report? = some r := by rw [report?, result]
          rw [reports, List.filterMap_cons_some given, List.map_cons, List.map_cons, first r result]
          exact (ih others).cons_cons _
      | error e =>
          have none : o.report? = none := by rw [report?, result]
          rw [reports, List.filterMap_cons_none none, List.map_cons]
          exact (ih others).cons _

/-- The message on the error stream for a run that failed. -/
def complaint? (o : Outcome) : Option String :=
  o.error?.map fun e => "tidyscan: " ++ (o.document.path.text ++ ": " ++ e.message)

theorem failureMessage?_event (o : Outcome) :
    Command.failureMessage? o.event = o.complaint? := by
  obtain ⟨d, result⟩ := o
  cases result <;> rfl

end Outcome

namespace Command

/-- Where all reports have a line, each gets its own. -/
theorem exists_records {reports : List Report} (writable : ∀ r ∈ reports, r.IsWritable)
    (valid : ∀ r ∈ reports, r.diagnostics.WellFormed) :
    ∃ lines, records reports = lines.flatMap line ∧
      List.Forall₂ Report.WrittenOn reports lines := by
  induction reports with
  | nil => exact ⟨[], rfl, .nil⟩
  | cons r reports ih =>
      obtain ⟨here, later⟩ := List.forall_mem_cons.mp writable
      obtain ⟨valid, valid'⟩ := List.forall_mem_cons.mp valid
      obtain ⟨lines, printed, all⟩ := ih later valid'
      obtain ⟨j, found, holds⟩ := exists_reportJson? here valid
      refine ⟨j.render :: lines, ?_, .cons holds all⟩
      rw [records, found, List.flatMap_cons, ← printed]

/-- The diagnostics of some reports in the order in which they are printed, each with its path. -/
def printed (reports : List Report) : List (Path × Diagnostic) :=
  reports.flatMap fun r => r.diagnostics.files.entries.flatMap fun e => e.2.map fun d => (e.1, d)

/-- The line for a diagnostic of a file, counted from one. -/
def printedLine (e : Path × Diagnostic) : List Char :=
  Diagnostic.line e.1.text.toList e.2.range.start e.2.severity e.2.message.toList

theorem flatMap_plainLines (reports : List Report) : reports.flatMap plainLines =
    ((printed reports).map printedLine).flatMap line := by
  have lines : plainLines = fun r : Report => r.diagnostics.files.entries.flatMap fun e =>
      e.2.flatMap fun d => line (printedLine (e.1, d)) := by
    funext r
    simp only [plainLines, Diagnostic.toList_display, printedLine]
  simp only [lines, printed, List.flatMap_map, List.flatMap_assoc]

theorem map_snd_printed (reports : List Report) :
    (printed reports).map Prod.snd = reports.flatMap fun r => r.diagnostics.diagnostics := by
  simp [printed, Function.comp_def, DiagnosticMap.diagnostics, PathMap.values,
    List.flatMap]

/-- How many diagnostics of a severity are printed. -/
def printedCount (severity : Severity) (reports : List Report) : Nat :=
  ((printed reports).filter fun e => e.2.severity = severity).length

theorem printedCount_eq_length (severity : Severity) (reports : List Report) :
    printedCount severity reports = ((reports.flatMap fun r => r.diagnostics.diagnostics).filter
      fun d => d.severity = severity).length := by
  rw [← map_snd_printed, List.filter_map, List.length_map]
  rfl

/-- Nothing behind one, an `s` behind any other number. -/
def plural (n : Nat) : List Char := if n = 1 then [] else ['s']

/-- The last line: how many files there were, and how many errors and warnings are printed. -/
def lastLine (reports : List Report) : List Char :=
  let errors := printedCount .error reports
  let warnings := printedCount .warning reports
  Text.decimal reports.length ++ " file".toList ++ plural reports.length ++
    " analyzed: ".toList ++ Text.decimal errors ++ " error".toList ++ plural errors ++
    ", ".toList ++ Text.decimal warnings ++ " warning".toList ++ plural warnings

/-- The numbers kept with the reports are those of the printed diagnostics. -/
theorem printedCount_eq_foldr (severity : Severity) (reports : List Report) :
    printedCount severity reports =
      reports.foldr (fun r n => r.diagnostics.count severity + n) 0 := by
  rw [printedCount_eq_length]
  induction reports with
  | nil => rfl
  | cons r reports ih =>
      rw [List.flatMap_cons, List.filter_append, List.length_append, ih, List.foldr_cons]
      rfl

theorem summary_eq (reports : List Report) : summary reports = lastLine reports := by
  have errors : errorCount reports = printedCount .error reports :=
    (printedCount_eq_foldr .error reports).symm
  have warnings : warningCount reports = printedCount .warning reports :=
    (printedCount_eq_foldr .warning reports).symm
  rw [summary, lastLine, errors, warnings, counted, counted, counted]
  simp [plural]

/-- Some report holds an error. -/
def Faulty (reports : List Report) : Prop :=
  ∃ r ∈ reports, ∃ d ∈ r.diagnostics.diagnostics, d.severity = .error

theorem errorCount_pos_iff (reports : List Report) : 0 < errorCount reports ↔ Faulty reports := by
  have counted : errorCount reports = printedCount .error reports :=
    (printedCount_eq_foldr .error reports).symm
  rw [counted, printedCount_eq_length, List.length_pos_iff_exists_mem]
  constructor
  · rintro ⟨d, member⟩
    obtain ⟨inReports, error⟩ := List.mem_filter.mp member
    obtain ⟨r, given, inside⟩ := List.mem_flatMap.mp inReports
    exact ⟨r, given, d, inside, of_decide_eq_true error⟩
  · rintro ⟨r, given, d, inside, error⟩
    have inReports := List.mem_flatMap_of_mem (f := fun r => r.diagnostics.diagnostics) given inside
    exact ⟨d, List.mem_filter.mpr ⟨inReports, decide_eq_true error⟩⟩

/-- Sorting leaves no report behind another one with a smaller path. -/
theorem pairwise_reportsOf (events : List Event) : (reportsOf events).Pairwise fun r r' =>
    r.document.path.compare r'.document.path ≠ .gt := by
  unfold reportsOf
  generalize events.filterMap _ = reports
  have byPath := @List.pairwise_mergeSort Report
    (fun a b => decide (a.document.path.compare b.document.path ≠ .gt)) ?_ ?_ reports
  · exact byPath.imp fun before => of_decide_eq_true before
  · intro a b c first second
    apply decide_eq_true
    exact Path.compare_ne_gt_trans (of_decide_eq_true first) (of_decide_eq_true second)
  · intro a b
    rw [Bool.or_eq_true, decide_eq_true_eq, decide_eq_true_eq]
    exact Path.compare_ne_gt_total _ _

/-- The reports by path are those of the runs, in whatever order these finished. -/
theorem perm_reportsOf (outcomes : List Outcome) :
    (reportsOf (outcomes.map Outcome.event)).Perm (Outcome.reports outcomes) := by
  refine (List.mergeSort_perm _ _).trans (.of_eq ?_)
  rw [List.filterMap_map]
  refine List.filterMap_congr fun o _ => ?_
  obtain ⟨d, result⟩ := o
  cases result <;> rfl

section Distinct

variable {outcomes : List Outcome}

/-- What holds of the results of runs: each report is about its document, and no two documents
share a path. -/
structure Separate (outcomes : List Outcome) : Prop where
  own : ∀ o ∈ outcomes, ∀ r, o.result = .ok r → r.document = o.document ∧ r.OfRun
  apart : (outcomes.map fun o => o.document.path).Nodup

theorem Separate.perm {others : List Outcome} (separate : Separate outcomes)
    (perm : others.Perm outcomes) : Separate others :=
  ⟨fun o member => separate.own o (perm.mem_iff.mp member),
    (perm.map _).nodup_iff.mpr separate.apart⟩

/-- No two reports share a path. -/
theorem Separate.nodup_reports (separate : Separate outcomes) :
    ((Outcome.reports outcomes).map fun r => r.document.path).Nodup :=
  separate.apart.sublist (Outcome.sublist_reports fun o member r result =>
    (separate.own o member r result).1)

theorem Separate.ofRun (separate : Separate outcomes) {r : Report}
    (member : r ∈ reportsOf (outcomes.map Outcome.event)) : r.OfRun := by
  obtain ⟨o, given, report⟩ := List.mem_filterMap.mp ((perm_reportsOf outcomes).mem_iff.mp member)
  cases result : o.result with
  | ok r' =>
      rw [Outcome.report?, result] at report
      exact Option.some.inj report ▸ (separate.own o given r' result).2
  | error e =>
      rw [Outcome.report?, result] at report
      cases report

theorem Separate.sorted_reportsOf (separate : Separate outcomes) :
    Report.Sorted (reportsOf (outcomes.map Outcome.event)) := by
  have perm := (perm_reportsOf outcomes).map fun r => r.document.path
  have apart := List.pairwise_map.mp (perm.nodup_iff.mpr separate.nodup_reports)
  refine ((pairwise_reportsOf _).and apart).imp_of_mem ?_
  rintro r r' given given' ⟨before, other⟩
  apply Path.compare_eq_lt before
  intro same
  apply other
  exact (separate.ofRun given).normal.eq_of_same (separate.ofRun given').normal same

/-- The reports do not show the order in which the runs finished. -/
theorem Separate.reportsOf_eq {others : List Outcome} (separate : Separate outcomes)
    (perm : others.Perm outcomes) :
    reportsOf (others.map Outcome.event) = reportsOf (outcomes.map Outcome.event) := by
  apply (separate.perm perm).sorted_reportsOf.eq_of_perm separate.sorted_reportsOf
  calc
    reportsOf (others.map Outcome.event)
    _ ~ Outcome.reports others := perm_reportsOf others
    _ ~ Outcome.reports outcomes := perm.filterMap _
    _ ~ reportsOf (outcomes.map Outcome.event) := (perm_reportsOf outcomes).symm

end Distinct

/-- Some run failed. -/
def Failed (outcomes : List Outcome) : Prop := ∃ o ∈ outcomes, ∃ e, o.result = .error e

/-- What the command prints when runs have finished in some order, with their reports by path. Where
records are asked for, they and the status are told of reports that can be written. -/
structure Prints (json : Bool) (outcomes : List Outcome) (reports : List Report) (output : Output) :
    Prop where
  own : ∀ o ∈ outcomes, ∀ r, o.result = .ok r → r.document = o.document
  complete : reports.Perm (Outcome.reports outcomes)
  sorted : Report.Sorted reports
  /-- The diagnostics of each report stand by path as well. -/
  ordered : ∀ r ∈ reports, r.diagnostics.files.Ordered
  plain : json = false → output.stdout.toList =
    ((printed reports).map printedLine ++ [lastLine reports]).flatMap fun s => s ++ ['\n']
  records : json = true → (∀ r ∈ reports, r.IsWritable) → ∃ lines,
    output.stdout.toList = lines.flatMap (fun s => s ++ ['\n']) ∧
      List.Forall₂ Report.WrittenOn reports lines
  complaints : output.stderr = outcomes.filterMap Outcome.complaint?
  status : (json = true → ∀ r ∈ reports, r.IsWritable) →
    (output.status = 2 ↔ Failed outcomes) ∧
    (output.status = 1 ↔ ¬ Failed outcomes ∧ Faulty reports) ∧
    (output.status = 0 ↔ ¬ Failed outcomes ∧ ¬ Faulty reports)

theorem any_failureMessage?_iff (outcomes : List Outcome) :
    ((outcomes.map Outcome.event).any fun e => (failureMessage? e).isSome) = true ↔
      Failed outcomes := by
  rw [List.any_map, List.any_eq_true]
  refine exists_congr fun o => and_congr_right fun _ => ?_
  rw [Function.comp_apply, Outcome.failureMessage?_event, Outcome.complaint?, Option.isSome_map,
    Outcome.error?]
  cases o.result with
  | ok r => simp
  | error e => simp

/-- A failure goes before an error that was reported. -/
theorem status_cases (outcomes : List Outcome) :
    let reports := reportsOf (outcomes.map Outcome.event)
    let status := status (outcomes.map Outcome.event)
    status = 2 ∧ Failed outcomes ∨ status = 1 ∧ ¬ Failed outcomes ∧ Faulty reports ∨
      status = 0 ∧ ¬ Failed outcomes ∧ ¬ Faulty reports := by
  intro reports status
  have failed := any_failureMessage?_iff outcomes
  have faulty := errorCount_pos_iff reports
  by_cases some : Failed outcomes
  · exact Or.inl ⟨if_pos (failed.mpr some), some⟩
  · have whole : status = if errorCount reports > 0 then 1 else 0 :=
      if_neg fun any => some (failed.mp any)
    by_cases bad : Faulty reports
    · exact Or.inr (Or.inl ⟨whole.trans (if_pos (faulty.mpr bad)), some, bad⟩)
    · exact Or.inr (Or.inr ⟨whole.trans (if_neg fun above => bad (faulty.mp above)), some, bad⟩)

/-- Where all reports can be written, the command does not break down. -/
theorem status_conclude {json : Bool} {events : List Event}
    (writable : json = true → ∀ r ∈ reportsOf events, r.IsWritable) :
    (conclude json events).status = status events := by
  refine if_neg fun broken => ?_
  obtain ⟨asked, some⟩ := Bool.and_eq_true_iff.mp broken
  obtain ⟨r, member, none⟩ := List.any_eq_true.mp some
  exact reportJson?_eq_none_iff.mp (Option.isNone_iff_eq_none.mp none) (writable asked r member)

theorem prints_conclude (json : Bool) {outcomes : List Outcome} (separate : Separate outcomes) :
    Prints json outcomes (reportsOf (outcomes.map Outcome.event))
      (conclude json (outcomes.map Outcome.event)) := by
  refine {
    own := fun o member r completed => (separate.own o member r completed).1
    complete := perm_reportsOf outcomes
    sorted := separate.sorted_reportsOf
    ordered := fun r member => (separate.ofRun member).valid.ordered
    plain := ?_
    records := ?_
    complaints := ?_
    status := ?_ }
  · rintro rfl
    simp only [conclude, Bool.false_eq_true, if_false, String.toList_ofList, Command.plain,
      flatMap_plainLines, summary_eq, List.flatMap_append, List.flatMap_singleton]
    rfl
  · rintro rfl writable
    simp only [conclude, if_true, String.toList_ofList]
    exact exists_records writable fun r member => (separate.ofRun member).valid
  · rw [conclude, List.filterMap_map]
    exact List.filterMap_congr fun o _ => o.failureMessage?_event
  · intro writable
    rw [status_conclude writable]
    rcases status_cases outcomes with ⟨equal, some⟩ | ⟨equal, none, bad⟩ | ⟨equal, none, clean⟩
    · simp [equal, some]
    · simp [equal, none, bad]
    · simp [equal, none, clean]

/-- Neither what is printed nor the status shows the order in which the runs finished. -/
theorem conclude_perm (json : Bool) {outcomes others : List Outcome} (separate : Separate outcomes)
    (perm : others.Perm outcomes) :
    (conclude json (others.map Outcome.event)).stdout =
        (conclude json (outcomes.map Outcome.event)).stdout ∧
      (conclude json (others.map Outcome.event)).status =
        (conclude json (outcomes.map Outcome.event)).status := by
  have reports := separate.reportsOf_eq perm
  constructor
  · simp only [conclude, reports]
  · simp only [conclude, status, reports, (perm.map Outcome.event).any_eq]

end Command

end LintReport
