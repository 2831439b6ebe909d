import LintReport.Proofs.Fallback.Learned

set_option autoImplicit false

/- What a call may do. It makes a second run only in the place of a first that reported nothing,
fails only with the first one, and answers for the file that it was asked about. -/
namespace LintReport

open LintReport.Path (Same)

namespace Report

/-- `r` is `report` with an empty list for a path that had none, and otherwise unchanged. -/
structure WithEntry (report : Report) (p : Path) (r : Report) : Prop where
  document : r.document = report.document
  total : r.total = report.total
  kept : report.diagnostics.get? p ≠ none → r = report
  added : report.diagnostics.get? p = none → ∃ before after,
    report.diagnostics.files.entries = before ++ after ∧
      r.diagnostics.files.entries = before ++ (p, []) :: after

theorem withEntry_ensureEntry {r : Report} (valid : r.diagnostics.WellFormed) (p : Path) :
    r.WithEntry p (r.ensureEntry p) := by
  refine ⟨rfl, rfl, ?_, ?_⟩
  · intro present
    obtain ⟨ds, found⟩ := Option.ne_none_iff_exists'.mp present
    have same : r.diagnostics.files.upsert p (fun old => old.getD []) = r.diagnostics.files :=
      PathMap.upsert_of_find? valid.ordered found rfl
    rw [ensureEntry, DiagnosticMap.ensureEntry, same]
  · intro absent
    exact PathMap.upsert_of_find?_none absent _

theorem get?_ensureEntry_ne_none {r : Report} (valid : r.diagnostics.WellFormed) (p : Path) :
    (r.ensureEntry p).diagnostics.get? p ≠ none := by
  have found := PathMap.find?_upsert r.diagnostics.files valid.ordered p p fun old => old.getD []
  rw [if_pos rfl] at found
  intro absent
  cases found.symm.trans absent

theorem OfRun.get?_ne_none {r : Report} (ofRun : r.OfRun) :
    r.diagnostics.get? r.document.path ≠ none := by
  rw [DiagnosticMap.get?_of_mem_paths ofRun.own]
  exact Option.some_ne_none _

end Report

theorem Run.started_after (run : Run) : ∃ starts, run.after.started = starts ++ run.world.started ∧
    starts.length ≤ 1 ∧ (run.analyzer.accepts run.document = false → starts = []) :=
  run.analyzer.started_analyze run.document run.world

namespace Fallback

variable {known : Associations}

namespace Call

variable {call : Call} {second : Run}

/-- The second run starts the analyzer once more at most, and only for a language that the first
could start it for. -/
theorem Follows.started_after (follows : call.Follows known second) (valid : known.Valid) :
    ∃ starts, second.after.started = starts ++ call.first.after.started ∧
      starts.length ≤ 1 ∧ (call.analyzer.accepts call.document = false → starts = []) := by
  have analyzer : second.analyzer = call.analyzer := congrArg Run.analyzer follows.same
  have before : second.world.started = call.first.after.started :=
    congrArg (fun run => run.world.started) follows.same
  have language := (follows.other valid).2.2
  have accepted : second.analyzer.accepts second.document =
      call.analyzer.accepts call.document := by
    rw [Analyzer.accepts, Analyzer.accepts, analyzer, language]
  have started := second.started_after
  rwa [before, accepted] at started

namespace Course

variable {outcome : Outcome}

theorem started_of_none (course : call.Course known outcome) (last : call.second? known = none) :
    outcome.world.started = call.first.after.started := by
  cases course with
  | failed broken => rfl
  | alone completed last' same => exact same
  | retryFailed completed next broken => cases last.symm.trans next
  | retried completed next completed' => cases last.symm.trans next

theorem world_of_some (course : call.Course known outcome)
    (next : call.second? known = some second) : outcome.world = second.after := by
  cases course with
  | failed broken => cases (second?_of_error broken).symm.trans next
  | alone completed last same => cases last.symm.trans next
  | retryFailed completed next' broken => rw [Option.some.inj (next.symm.trans next')]
  | retried completed next' completed' => rw [Option.some.inj (next.symm.trans next')]

/-- Each of the two runs of a call starts the analyzer at most once. -/
theorem started (course : call.Course known outcome) (valid : known.Valid) :
    ∃ starts, outcome.world.started = starts ++ call.world.started ∧ starts.length ≤ 2 ∧
      (call.analyzer.accepts call.document = false → starts = []) := by
  obtain ⟨starts, started, once, rejected⟩ := call.first.started_after
  cases next : call.second? known with
  | none => exact ⟨starts, (course.started_of_none next).trans started, by omega, rejected⟩
  | some second =>
      obtain ⟨starts', started', once', rejected'⟩ :=
        (second?_eq_some_iff.mp next).started_after valid
      -- The last start stands in front, so those of the second run come first.
      refine ⟨starts' ++ starts, ?_, ?_, ?_⟩
      · rw [course.world_of_some next, started', started, List.append_assoc]
        rfl
      · rw [List.length_append]
        omega
      · intro unaccepted
        rw [rejected' unaccepted, rejected unaccepted, List.append_nil]

theorem result_eq_error_iff (course : call.Course known outcome) (e : RunError) :
    outcome.result = .error e ↔ call.first.result = .error e := by
  cases course with
  | failed broken => rw [broken]
  | alone completed last same => rw [completed]
  | retryFailed completed next broken => rw [completed]
  | retried completed next completed' => simp [completed]

theorem associations_of_error (course : call.Course known outcome) {e : RunError}
    (broken : outcome.result = .error e) : outcome.associations = known := by
  cases course with
  | failed broken' => rfl
  | alone completed last same => cases broken
  | retryFailed completed next broken' => cases broken
  | retried completed next completed' => cases broken

theorem result_of_some (course : call.Course known outcome) {retry : Report}
    (next : call.second? known = some second) (completed : second.result = .ok retry) :
    outcome.result = .ok (retry.ensureEntry call.document.path) := by
  cases course with
  | failed broken => cases (second?_of_error broken).symm.trans next
  | alone completed' last same => cases last.symm.trans next
  | retryFailed completed' next' broken =>
      rw [← Option.some.inj (next.symm.trans next'), completed] at broken
      cases broken
  | retried completed' next' completed'' =>
      rw [← Option.some.inj (next.symm.trans next'), completed] at completed''
      rw [Except.ok.inj completed'']

theorem result_of_none (course : call.Course known outcome) {report : Report}
    (completed : call.first.result = .ok report)
    (none : ∀ second retry, call.second? known = some second → second.result ≠ .ok retry) :
    outcome.result = .ok report := by
  cases course with
  | failed broken => cases broken.symm.trans completed
  | alone completed' last same => exact completed'.symm.trans completed
  | retryFailed completed' next broken => exact completed'.symm.trans completed
  | retried completed' next completed'' => exact absurd completed'' (none _ _ next)

/-- Whichever report a call gives, it has a list for the document that was asked about. -/
theorem get?_ne_none (course : call.Course known outcome) (valid : known.Valid) {r : Report}
    (given : outcome.result = .ok r) : r.diagnostics.get? call.document.path ≠ none := by
  have first : ∀ report, call.first.result = .ok report →
      report.diagnostics.get? call.document.path ≠ none := by
    intro report completed
    obtain ⟨own, ofRun⟩ := call.first.ofRun_result call.isNormal_document completed
    have here := ofRun.get?_ne_none
    rwa [own] at here
  cases course with
  | failed broken => cases given
  | alone completed last same => exact first r (completed.trans given)
  | retryFailed completed next broken => exact first r (completed.trans given)
  | retried completed next completed' =>
      have normal := ((second?_eq_some_iff.mp next).other valid).1
      have ofRun := (Run.ofRun_result _ normal completed').2
      rw [← Except.ok.inj given]
      exact Report.get?_ensureEntry_ne_none ofRun.valid call.document.path

end Course

end Call

/-- After any calls and whatever happens to the files, a call starts the analyzer twice at most,
and never for a language that is not analyzed. There is a second run only after a first one that
reported nothing, and it analyzes another file in the same language. The call fails as its first
run fails, and then nothing is learned. Else it gives the report of the second run, with a list
for the document that was asked about, when there is such a report, and otherwise the report of
the first run. -/
theorem outcome_retries_once (earlier : List Call) (call : Call) :
    let known := learned .empty earlier
    let outcome := call.outcome known
    (call.changes = .still →
      outcome = analyze call.analyzer call.document known call.world) ∧
    (∃ starts, outcome.world.started = starts ++ call.world.started ∧ starts.length ≤ 2 ∧
      (call.analyzer.accepts call.document = false → starts = [])) ∧
    (∀ second, call.Follows known second →
      ¬ Same second.document.path call.document.path ∧
      second.document.language = call.document.language) ∧
    (∀ second, call.Follows known second → outcome.world = second.after) ∧
    ((∀ second, ¬ call.Follows known second) →
      outcome.world.started = call.first.after.started) ∧
    (∀ e, outcome.result = .error e ↔ call.first.result = .error e) ∧
    (∀ e, outcome.result = .error e → outcome.associations = known) ∧
    (∀ second retry, call.Follows known second → second.result = .ok retry →
      ∃ r, outcome.result = .ok r ∧ retry.WithEntry call.document.path r) ∧
    (∀ report, call.first.result = .ok report →
      (∀ second retry, call.Follows known second → second.result ≠ .ok retry) →
      outcome.result = .ok report) ∧
    ∀ r, outcome.result = .ok r → r.diagnostics.get? call.document.path ≠ none := by
  intro known outcome
  have valid : known.Valid := valid_learned Associations.valid_empty earlier
  have course : call.Course known outcome := call.course_outcome known
  have other : ∀ second, call.Follows known second →
      ¬ Same second.document.path call.document.path ∧
        second.document.language = call.document.language :=
    fun second follows => (follows.other valid).2
  have given : ∀ second retry, call.Follows known second → second.result = .ok retry →
      ∃ r, outcome.result = .ok r ∧ retry.WithEntry call.document.path r := by
    intro second retry follows completed
    have ofRun := (second.ofRun_result (follows.other valid).1 completed).2
    exact ⟨_, course.result_of_some (Call.second?_eq_some_iff.mpr follows) completed,
      Report.withEntry_ensureEntry ofRun.valid call.document.path⟩
  refine ⟨call.outcome_of_still known, course.started valid, other, ?_, ?_,
    course.result_eq_error_iff, fun e => course.associations_of_error, given, ?_,
    fun r => course.get?_ne_none valid⟩
  · intro second follows
    exact course.world_of_some (Call.second?_eq_some_iff.mpr follows)
  · intro none
    exact course.started_of_none (Option.eq_none_iff_forall_not_mem.mpr fun second next =>
      none second (Call.second?_eq_some_iff.mp next))
  · intro report completed none
    exact course.result_of_none completed fun second retry next =>
      none second retry (Call.second?_eq_some_iff.mp next)

end Fallback

end LintReport
