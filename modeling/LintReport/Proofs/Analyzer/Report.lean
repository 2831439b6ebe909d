import LintReport.Analyzer
import LintReport.Proofs.Report.Collate

set_option autoImplicit false

/- What one run of the analyzer leads to: at most one start, and a report in which every file
but the document has something reported on it. A run is launched, and settled when its output is
there. -/
namespace LintReport

namespace Host

variable (h : Host) (w : World)

theorem started_start (s : Start) :
    (h.start w s).2.started = w.started ∨ (h.start w s).2.started = s :: w.started := by
  unfold start
  split
  · exact Or.inl rfl
  · exact Or.inr rfl

theorem world_run {i : Invocation} {program : Path} (merge : Bool) (limit : Option UInt64)
    (found : h.findProgram? w.disk ⟨i.program⟩ = some program) :
    (h.run merge limit i w).2 = (h.start w ⟨program, i.args⟩).2 := by
  simp only [run, found]

/-- A call starts the program once or, when it is not there or not given its arguments, never. -/
theorem started_run (merge : Bool) (limit : Option UInt64) (i : Invocation) :
    (h.run merge limit i w).2.started = w.started ∨
      ∃ program, (h.run merge limit i w).2.started = ⟨program, i.args⟩ :: w.started := by
  cases found : h.findProgram? w.disk ⟨i.program⟩ with
  | none =>
      rw [run_of_notFound merge limit found]
      exact Or.inl rfl
  | some program =>
      rw [world_run h w merge limit found]
      exact (h.started_start w ⟨program, i.args⟩).imp_right fun once => ⟨program, once⟩

end Host

namespace DiagnosticMap

theorem mem_values_of_get? {m : DiagnosticMap} {p : Path} {ds : List Diagnostic}
    (found : m.get? p = some ds) : ds ∈ m.files.values := by
  obtain ⟨e, present, rfl⟩ := Option.map_eq_some_iff.mp found
  exact List.mem_map_of_mem (List.mem_of_find?_eq_some present)

/-- A map that counts no diagnostic holds none. -/
theorem getD_get?_of_total {m : DiagnosticMap} (valid : m.WellFormed) (clean : m.total = 0)
    (p : Path) : (m.get? p).getD [] = [] := by
  have none : m.files.values.flatten = [] := by
    rw [← List.length_eq_zero_iff, ← clean]
    exact valid.counted.symm
  cases found : m.get? p with
  | none => rfl
  | some ds => exact List.flatten_eq_nil_iff.mp none ds (mem_values_of_get? found)

end DiagnosticMap

namespace Report

open LintReport.Path (Same)

/-- Something is reported on a file other than the document. -/
def ReportsOn (r : Report) (p : Path) : Prop :=
  ¬ Same p r.document.path ∧ (r.diagnostics.get? p).getD [] ≠ []

instance (r : Report) (p : Path) : Decidable (r.ReportsOn p) :=
  inferInstanceAs (Decidable (_ ∧ _))

/-- The files other than the document that something is reported on. -/
def reportedOn (r : Report) : List Path :=
  r.diagnostics.paths.filter fun p => decide (r.ReportsOn p)

/-- What holds of the report of a run: a list without diagnostics stands at most under the path
of the document, where a list always is. -/
structure OfRun (r : Report) : Prop where
  normal : r.document.path.IsNormal
  valid : r.diagnostics.WellFormed
  own : r.document.path ∈ r.diagnostics.paths
  filled : ∀ p ∈ r.diagnostics.paths, p ≠ r.document.path →
    (r.diagnostics.get? p).getD [] ≠ []

theorem ofRun_empty {d : Document} (normal : d.path.IsNormal) : (empty d).OfRun := by
  refine ⟨normal, DiagnosticMap.wellFormed_ofPrimary d.path, ?_, ?_⟩
  · exact List.mem_singleton.mpr rfl
  · intro p member other
    exact absurd (List.mem_singleton.mp member) other

theorem ofRun_collate (profile : Profile) (disk : Disk) {d : Document} (normal : d.path.IsNormal)
    (output : List Char) : OfRun ⟨d, collate profile disk d output⟩ := by
  refine ⟨normal, wellFormed_collate disk profile normal output, ?_, ?_⟩
  · exact (mem_paths_collate disk profile normal output d.path).mpr (Or.inl rfl)
  · intro p member other
    have normal' := isNormal_of_mem_paths disk profile normal member
    rw [getD_get?_collate disk profile normal output normal', ne_eq, List.append_eq_nil_iff,
      not_and_or]
    have about := ((mem_paths_collate disk profile normal output p).mp member).resolve_left other
    rcases about with ⟨message, inOutput, resolved⟩ | ⟨f, inOutput, kept, resolved⟩
    · left
      have kept : message ∈ errorsAt (.ofProfile profile d.path) p
          (CompilerMessage.errors output) :=
        List.mem_filter.mpr ⟨inOutput, decide_eq_true resolved⟩
      exact List.ne_nil_of_mem (List.mem_map_of_mem kept)
    · right
      have kept : f ∈ findingsAt (.ofProfile profile d.path) p (Finding.scan output) :=
        List.mem_filter.mpr ⟨inOutput, decide_eq_true ⟨kept, resolved⟩⟩
      exact List.ne_nil_of_mem (List.mem_map_of_mem kept)

variable {r : Report}

/-- Without diagnostics a run reports on no other file. -/
theorem reportedOn_of_total (valid : r.diagnostics.WellFormed) (clean : r.total = 0) :
    r.reportedOn = [] := by
  rw [reportedOn, List.filter_eq_nil_iff]
  intro p _ reported
  exact (of_decide_eq_true reported).2 (DiagnosticMap.getD_get?_of_total valid clean p)

/-- Every file of a run's report that is not the document is reported on. -/
theorem OfRun.reportedOn_eq (ofRun : r.OfRun) :
    r.reportedOn = r.diagnostics.paths.filter fun p => decide (¬ Same p r.document.path) := by
  refine List.filter_congr fun p member => decide_eq_decide.mpr ?_
  refine ⟨And.left, fun other => ⟨other, ofRun.filled p member ?_⟩⟩
  rintro rfl
  exact other rfl

end Report

/-- What a launched run leads to: nothing to wait for in a language that is not analyzed, else what
the call of the analyzer gives. -/
abbrev Pending := Option (Except RunError (List Char))

namespace Analyzer

def launch (a : Analyzer) (d : Document) (w : World) : Pending × World :=
  if a.accepts d then
    let r := a.host.run a.profile.mergeStderr a.profile.timeoutSecs (a.invocation d) w
    (some r.1, r.2)
  else (none, w)

/-- Settles a run with the files as they then are. -/
def settle (a : Analyzer) (d : Document) (disk : Disk) : Pending → Except RunError Report
  | none => .ok (Report.empty d)
  | some (.error e) => .error e
  | some (.ok output) => .ok ⟨d, Report.collate a.profile disk d output⟩

/-- To analyze a document is to launch its run and settle it at once. -/
theorem analyze_eq (a : Analyzer) (d : Document) (w : World) :
    a.analyze d w =
      (a.settle d (a.launch d w).2.disk (a.launch d w).1, (a.launch d w).2) := by
  unfold analyze launch
  split
  · obtain ⟨result, after⟩ :=
      a.host.run a.profile.mergeStderr a.profile.timeoutSecs (a.invocation d) w
    cases result <;> rfl
  · rfl

theorem ofRun_settle (a : Analyzer) {d : Document} (normal : d.path.IsNormal) {disk : Disk}
    {pending : Pending} {r : Report} (settled : a.settle d disk pending = .ok r) :
    r.document = d ∧ r.OfRun := by
  rcases pending with _ | e | output
  · cases settled
    exact ⟨rfl, Report.ofRun_empty normal⟩
  · cases settled
  · cases settled
    exact ⟨rfl, Report.ofRun_collate _ _ normal _⟩

variable (a : Analyzer) (d : Document) (w : World)

theorem world_analyze (accepted : a.accepts d = true) : (a.analyze d w).2 =
    (a.host.run a.profile.mergeStderr a.profile.timeoutSecs (a.invocation d) w).2 := by
  rw [analyze_eq, launch, if_pos accepted]

/-- A run starts the analyzer at most once, and not at all for a language that is not
analyzed. -/
theorem started_analyze : ∃ starts, (a.analyze d w).2.started = starts ++ w.started ∧
    starts.length ≤ 1 ∧ (a.accepts d = false → starts = []) := by
  cases accepted : a.accepts d with
  | false =>
      rw [analyze_of_rejected w accepted]
      exact ⟨[], rfl, Nat.zero_le 1, fun _ => rfl⟩
  | true =>
      rw [world_analyze a d w accepted]
      rcases a.host.started_run w a.profile.mergeStderr a.profile.timeoutSecs (a.invocation d) with
        none | ⟨program, once⟩
      · exact ⟨[], none, Nat.zero_le 1, fun _ => rfl⟩
      · exact ⟨[_], once, Nat.le_refl 1, fun impossible => by cases impossible⟩

theorem ofRun_analyze {r : Report} (normal : d.path.IsNormal)
    (completed : (a.analyze d w).1 = .ok r) : r.document = d ∧ r.OfRun := by
  rw [analyze_eq] at completed
  exact a.ofRun_settle normal completed

end Analyzer

end LintReport
