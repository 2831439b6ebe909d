import LintReport.Proofs.Fallback.Course

set_option autoImplicit false

/- What is associated after some calls. It depends on the reports of all runs that the calls
completed, one after the other: a file belongs to the document of the last that reports on it. -/
namespace LintReport

open LintReport.Path (Same)

theorem Run.ofRun_result (run : Run) {report : Report} (normal : run.document.path.IsNormal)
    (completed : run.result = .ok report) : report.document = run.document ∧ report.OfRun :=
  run.analyzer.ofRun_analyze run.document run.world normal completed

namespace Fallback

namespace Call

variable {call : Call} {known : Associations} {second : Run}

/-- An alternate is a document of another file, in the same language. -/
theorem Follows.other (follows : call.Follows known second) (valid : known.Valid) :
    second.document.path.IsNormal ∧ ¬ Same second.document.path call.document.path ∧
      second.document.language = call.document.language := by
  obtain ⟨report, completed, _, path, found, read⟩ := follows.clean
  have first : report.OfRun := (call.first.ofRun_result call.isNormal_document completed).2
  have valid' := Associations.valid_record valid first
  obtain ⟨normal, other⟩ := other_of_alternate? valid' call.isNormal_document found
  obtain ⟨content, _, alternate⟩ := Document.exists_of_read read
  rw [alternate, Document.ofContent, normal]
  exact ⟨normal, other, rfl⟩

variable (call known)

/-- The runs that a call makes. -/
def runs : List Run := call.first :: (call.second? known).toList

/-- The reports of the runs that a call completes. -/
def reports : List Report := (call.runs known).filterMap fun run => run.result.toOption

variable {call known}

theorem ofRun_of_mem_reports (valid : known.Valid) {r : Report} (member : r ∈ call.reports known) :
    r.OfRun := by
  obtain ⟨run, made, completed⟩ := List.mem_filterMap.mp member
  rw [toOption_eq_some_iff] at completed
  rcases List.mem_cons.mp made with rfl | later
  · exact (call.first.ofRun_result call.isNormal_document completed).2
  · have next : call.Follows known run := second?_eq_some_iff.mp (Option.mem_toList.mp later)
    exact (run.ofRun_result (next.other valid).1 completed).2

variable (call known)

/-- A call learns from the reports of its runs and from nothing else. -/
theorem associations_outcome :
    (call.outcome known).associations = (call.reports known).foldl .record known := by
  have course := call.course_outcome known
  generalize call.outcome known = outcome at course
  cases course with
  | failed broken => simp [reports, runs, second?_of_error broken, broken, Except.toOption]
  | alone completed last started => simp [reports, runs, last, completed, Except.toOption]
  | retryFailed completed next broken =>
      simp [reports, runs, next, completed, broken, Except.toOption]
  | retried completed next completed' =>
      simp [reports, runs, next, completed, completed', Except.toOption]

end Call

/-- What is associated after some calls. -/
def learned (known : Associations) (calls : List Call) : Associations :=
  calls.foldl (fun known call => (call.outcome known).associations) known

/-- The reports of all runs that some calls completed, the first one first. -/
def history (known : Associations) : List Call → List Report
  | [] => []
  | call :: calls => call.reports known ++ history (call.outcome known).associations calls

variable {known : Associations}

theorem ofRun_of_mem_history (valid : known.Valid) (calls : List Call) :
    ∀ r ∈ history known calls, r.OfRun := by
  induction calls generalizing known with
  | nil => simp [history]
  | cons call calls ih =>
      have reports : ∀ r ∈ call.reports known, r.OfRun :=
        fun r => Call.ofRun_of_mem_reports valid
      have valid' := Associations.valid_foldl_record valid reports
      rw [← call.associations_outcome] at valid'
      exact List.forall_mem_append.mpr ⟨reports, ih valid'⟩

theorem learned_eq_foldl (known : Associations) (calls : List Call) :
    learned known calls = (history known calls).foldl .record known := by
  induction calls generalizing known with
  | nil => rfl
  | cons call calls ih =>
      have step : learned known (call :: calls) =
        learned (call.outcome known).associations calls := rfl
      rw [step, ih, history, List.foldl_append, ← call.associations_outcome]

theorem valid_learned (valid : known.Valid) (calls : List Call) : (learned known calls).Valid := by
  rw [learned_eq_foldl]
  exact Associations.valid_foldl_record valid (ofRun_of_mem_history valid calls)

theorem source?_learned (calls : List Call) (file : Path) :
    (learned .empty calls).source? file =
      (Report.latest? (history .empty calls) file).map fun r => r.document.path := by
  have ofRuns := ofRun_of_mem_history Associations.valid_empty calls
  rw [learned_eq_foldl, Associations.source?_foldl_record Associations.valid_empty ofRuns,
    Associations.source?_empty, Option.or_none]

/-- What is associated goes back to the completed runs. A file belongs to the document of the
last of them that reported on it, which is another file. A call adds what the reports of its own
runs report on, in their order; without diagnostics these add nothing, and no file changes its
document unless one of them reports on it, not even the one that the call was made for. -/
theorem learned_from_latest (calls : List Call) (next : Call) :
    let known := learned .empty calls
    let known' := (next.outcome known).associations
    (next.changes = .still →
      next.outcome known = analyze next.analyzer next.document known next.world) ∧
    (∀ file source, known.source? file = some source → ¬ Same file source) ∧
    (∀ file source, known.source? file = some source ↔ ∃ earlier r later,
      history .empty calls = earlier ++ r :: later ∧ r.document.path = source ∧
        r.ReportsOn file ∧ ∀ r' ∈ later, ¬ r'.ReportsOn file) ∧
    known'.sources = (next.reports known).foldl (fun sources r =>
      r.reportedOn.foldl (fun sources p => sources.insert p r.document.path) sources)
        known.sources ∧
    (∀ r ∈ next.reports known, r.total = 0 → ∀ a : Associations, a.record r = a) ∧
    ∀ file, known'.source? file ≠ known.source? file → ∃ r ∈ next.reports known,
      r.ReportsOn file ∧ known'.source? file = some r.document.path := by
  intro known known'
  have valid : known.Valid := valid_learned Associations.valid_empty calls
  have ofRuns : ∀ r ∈ next.reports known, r.OfRun := fun r => Call.ofRun_of_mem_reports valid
  have after : known' = (next.reports known).foldl .record known := next.associations_outcome known
  have origin : ∀ file source, known.source? file = some source ↔ ∃ earlier r later,
      history .empty calls = earlier ++ r :: later ∧ r.document.path = source ∧
        r.ReportsOn file ∧ ∀ r' ∈ later, ¬ r'.ReportsOn file := by
    intro file source
    rw [source?_learned, Option.map_eq_some_iff]
    simp only [Report.latest?_eq_some_iff]
    constructor
    · rintro ⟨r, ⟨reported, earlier, later, split, none⟩, here⟩
      exact ⟨earlier, r, later, split, here, reported, none⟩
    · rintro ⟨earlier, r, later, split, here, reported, none⟩
      exact ⟨r, ⟨reported, earlier, later, split, none⟩, here⟩
  refine ⟨next.outcome_of_still known, ?_, origin, ?_, ?_, ?_⟩
  · intro file source found
    obtain ⟨earlier, r, later, _, rfl, reported, _⟩ := (origin file source).mp found
    exact reported.1
  · rw [after]
    exact Associations.sources_foldl_record ofRuns known
  · intro r member clean a
    exact a.record_of_total (ofRuns r member) clean
  · intro file changed
    rw [after, Associations.source?_foldl_record valid ofRuns] at changed ⊢
    cases found : Report.latest? (next.reports known) file with
    | none => exact absurd (by rw [found]; rfl) changed
    | some r =>
        obtain ⟨reported, earlier, later, split, _⟩ := Report.latest?_eq_some_iff.mp found
        exact ⟨r, split ▸ List.mem_append_right earlier List.mem_cons_self, reported, rfl⟩

end Fallback

end LintReport
