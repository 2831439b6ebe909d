import LintReport.Proofs.Command.Prepared
import LintReport.Proofs.Command.Printed

set_option autoImplicit false

/- How the command ends. It is refused before anything is started, or all runs are over, in
whatever order they were launched and finished, and then what it prints depends on their results
alone. -/
namespace LintReport.Command

/-- The ends that a command may come to, with the results of the runs as they finished. -/
inductive Concludes (host : Host) (home : Path) (a : Arguments) (w : World) :
    List Outcome → Output → World → Prop
  | refused {e : Failure} (failed : prepare host home a w.disk = .error e) :
      Concludes host home a w [] (refuse e) w
  | ended {analyzer : Analyzer} {documents : List Document} {s : Session}
      (prepared : prepare host home a w.disk = .ok (analyzer, documents))
      (steps : Session.Steps analyzer (.start documents w) s) (finished : s.IsOver) :
      Concludes host home a w s.finished (conclude a.json (s.finished.map Outcome.event)) s.world

/-- To analyze documents one by one is a session of its own. -/
theorem steps_analyzeAll (analyzer : Analyzer) (documents : List Document)
    (finished : List Outcome) (w : World) :
    ∃ outcomes, outcomes.map Outcome.event = (analyzeAll analyzer documents w).1 ∧
      Session.Steps analyzer ⟨documents, [], finished, w⟩
        ⟨[], [], finished ++ outcomes, (analyzeAll analyzer documents w).2⟩ := by
  induction documents generalizing finished w with
  | nil =>
      refine ⟨[], rfl, ?_⟩
      rw [List.append_nil]
      exact .refl
  | cons d documents ih =>
      let first : Outcome := ⟨d, (analyzer.analyze d w).1⟩
      obtain ⟨outcomes, events, steps⟩ := ih (finished ++ [first]) (analyzer.analyze d w).2
      rw [List.append_assoc, List.singleton_append] at steps
      refine ⟨first :: outcomes, ?_, ?_⟩
      · rw [List.map_cons, events]
        rfl
      · exact (Session.steps_alone analyzer [] documents d finished w).trans steps

variable {host : Host} {home : Path} {a : Arguments} {w : World}

theorem exists_concludes_analysis (host : Host) (home : Path) (w : World)
    (once : a.fallback = false) :
    ∃ outcomes, Concludes host home a w outcomes (analysis host home a w).1
      (analysis host home a w).2 := by
  unfold analysis
  split
  · next e failed => exact ⟨[], .refused failed⟩
  · next analyzer documents prepared =>
      obtain ⟨outcomes, events, steps⟩ := steps_analyzeAll analyzer documents [] w
      rw [List.nil_append] at steps
      refine ⟨outcomes, ?_⟩
      simp only [once, Bool.false_eq_true, if_false, ← events]
      exact .ended prepared steps ⟨rfl, rfl⟩

theorem Concludes.of_broken {outcomes : List Outcome} {output : Output} {w' : World}
    (concludes : Concludes host home a w outcomes output w') (broken : Broken w.disk home a) :
    w' = w ∧ output.stdout = "" ∧ output.status = 2 := by
  obtain ⟨e, failed⟩ : ∃ e, prepare host home a w.disk = .error e :=
    prepare_eq_error_iff.mpr broken
  cases concludes with
  | refused => exact ⟨rfl, rfl, rfl⟩
  | ended prepared =>
      rw [prepared] at failed
      cases failed

theorem Concludes.of_prepared {outcomes : List Outcome} {output : Output} {w' : World}
    {analyzer : Analyzer} {documents : List Document}
    (concludes : Concludes host home a w outcomes output w')
    (prepared : prepare host home a w.disk = .ok (analyzer, documents)) :
    ((outcomes.map Outcome.document).Perm documents ∧ ∀ o ∈ outcomes, o.OfRun analyzer) ∧
      output = conclude a.json (outcomes.map Outcome.event) := by
  cases concludes with
  | refused failed =>
      rw [prepared] at failed
      cases failed
  | ended prepared' steps finished =>
      rw [prepared] at prepared'
      cases prepared'
      have accounts := (Session.accounts_start analyzer documents w).steps steps
      exact ⟨⟨accounts.perm_finished finished, accounts.settled⟩, rfl⟩

theorem map_path_of_forall₂ {disk : Disk} {sources : List Source} {documents : List Document}
    (all : List.Forall₂ (fun s d => s.read disk = .ok d) sources documents) :
    documents.map Document.path = sources.map (Source.path disk.workingFolder) := by
  induction all with
  | nil => rfl
  | cons read _ ih => rw [List.map_cons, List.map_cons, ih, (Source.document_of_read read).1]

theorem separate_of_perm {disk : Disk} {analyzer : Analyzer} {sources : List Source}
    {documents : List Document} {outcomes : List Outcome}
    (all : List.Forall₂ (fun s d => s.read disk = .ok d) sources documents)
    (distinct : (sources.map (Source.path disk.workingFolder)).Nodup)
    (perm : (outcomes.map Outcome.document).Perm documents)
    (ofRun : ∀ o ∈ outcomes, o.OfRun analyzer) : Separate outcomes := by
  have normal : ∀ d ∈ documents, d.path.IsNormal := by
    intro d member
    obtain ⟨s, _, read⟩ := exists_of_mem_forall₂ all.flip member
    exact (Source.document_of_read read).2.2
  refine ⟨?_, ?_⟩
  · intro o member r completed
    have given := perm.mem_iff.mp (List.mem_map_of_mem member)
    exact (ofRun o member).report (normal o.document given) completed
  · have paths := perm.map Document.path
    rw [List.map_map, map_path_of_forall₂ all] at paths
    exact paths.nodup_iff.mpr distinct

end LintReport.Command
