import Mathlib.Logic.Relation
import LintReport.Proofs.Analyzer.Report

set_option autoImplicit false

/- Several runs at once. A run is launched and later settled; between the two, and in any order,
others are launched and settled, and the files may change. Whatever the order, each document gets
one result in the end. -/
namespace LintReport

/-- A document with the result of its run. -/
structure Outcome where
  document : Document
  result : Except RunError Report

namespace Outcome

def event (o : Outcome) : Event := Event.ofResult o.document o.result

/-- The result is that of a run of the analyzer, launched and settled at some time. -/
def OfRun (a : Analyzer) (o : Outcome) : Prop :=
  ∃ (before : World) (disk : Disk),
    o.result = a.settle o.document disk (a.launch o.document before).1

/-- The report of a run is about its document. -/
theorem OfRun.report {a : Analyzer} {o : Outcome} (ofRun : o.OfRun a)
    (normal : o.document.path.IsNormal) {r : Report} (completed : o.result = .ok r) :
    r.document = o.document ∧ r.OfRun := by
  obtain ⟨before, disk, equal⟩ := ofRun
  exact a.ofRun_settle normal (equal.symm.trans completed)

end Outcome

/-- Documents that wait for their run, runs that are on their way, and what has finished, the last
behind. -/
structure Session where
  waiting : List Document
  running : List (Document × Pending)
  finished : List Outcome
  world : World

namespace Session

def start (documents : List Document) (w : World) : Session := ⟨documents, [], [], w⟩

def IsOver (s : Session) : Prop := s.waiting = [] ∧ s.running = []

/-- One step: any document may be launched, any run settled, and any file changed. -/
inductive Step (a : Analyzer) : Session → Session → Prop
  | launched (before after : List Document) (d : Document) (running : List (Document × Pending))
      (finished : List Outcome) (w : World) :
      Step a ⟨before ++ d :: after, running, finished, w⟩
        ⟨before ++ after, running ++ [(d, (a.launch d w).1)], finished, (a.launch d w).2⟩
  | settled (waiting : List Document) (before after : List (Document × Pending)) (d : Document)
      (p : Pending) (finished : List Outcome) (w : World) :
      Step a ⟨waiting, before ++ (d, p) :: after, finished, w⟩
        ⟨waiting, before ++ after, finished ++ [⟨d, a.settle d w.disk p⟩], w⟩
  | changed (s : Session) (disk : Disk) : Step a s { s with world := { s.world with disk := disk } }

/-- Some steps, one after the other. -/
abbrev Steps (a : Analyzer) : Session → Session → Prop := Relation.ReflTransGen (Step a)

/-- All documents of a session, wherever they are. -/
def documents (s : Session) : List Document :=
  s.waiting ++ s.running.map Prod.fst ++ s.finished.map Outcome.document

/-- What every step keeps: no document is lost or doubled, and each result is that of a run. -/
structure Accounts (a : Analyzer) (given : List Document) (s : Session) : Prop where
  all : s.documents.Perm given
  launched : ∀ run ∈ s.running, ∃ w, run.2 = (a.launch run.1 w).1
  settled : ∀ o ∈ s.finished, o.OfRun a

open scoped List

variable {a : Analyzer} {given : List Document} {s t : Session}

theorem accounts_start (a : Analyzer) (given : List Document) (w : World) :
    (start given w).Accounts a given := by
  refine ⟨?_, List.forall_mem_nil _, List.forall_mem_nil _⟩
  simp [documents, start]

/-- A step takes each document on. -/
theorem Step.perm_documents (step : Step a s t) : t.documents.Perm s.documents := by
  cases step with
  | launched before after d running finished w =>
      calc
        (before ++ after) ++ (running ++ [(d, (a.launch d w).1)]).map Prod.fst ++
            finished.map Outcome.document
        _ = (before ++ after ++ running.map Prod.fst) ++ d :: finished.map Outcome.document := by
          simp
        _ ~ d :: (before ++ after ++ running.map Prod.fst ++ finished.map Outcome.document) :=
          List.perm_middle
        _ = d :: (before ++ (after ++ running.map Prod.fst ++ finished.map Outcome.document)) := by
          simp
        _ ~ before ++ d :: (after ++ running.map Prod.fst ++ finished.map Outcome.document) :=
          List.perm_middle.symm
        _ = before ++ d :: after ++ running.map Prod.fst ++ finished.map Outcome.document := by
          simp
  | settled waiting before after d p finished w =>
      calc
        waiting ++ (before ++ after).map Prod.fst ++
            (finished ++ [(⟨d, a.settle d w.disk p⟩ : Outcome)]).map Outcome.document
        _ = (waiting ++ (before ++ after).map Prod.fst ++ finished.map Outcome.document) ++
            [d] := by simp
        _ ~ d :: (waiting ++ (before ++ after).map Prod.fst ++ finished.map Outcome.document) :=
          List.perm_append_singleton d _
        _ = d :: (waiting ++ before.map Prod.fst ++
            (after.map Prod.fst ++ finished.map Outcome.document)) := by simp
        _ ~ waiting ++ before.map Prod.fst ++
            d :: (after.map Prod.fst ++ finished.map Outcome.document) := List.perm_middle.symm
        _ = waiting ++ (before ++ (d, p) :: after).map Prod.fst ++
            finished.map Outcome.document := by simp
  | changed disk => exact .refl _

theorem Accounts.step (accounts : s.Accounts a given) (step : Step a s t) :
    t.Accounts a given := by
  have all := step.perm_documents.trans accounts.all
  obtain ⟨_, launched, settled⟩ := accounts
  cases step with
  | launched before after d running finished w =>
      refine ⟨all, ?_, settled⟩
      exact List.forall_mem_append.mpr ⟨launched, List.forall_mem_singleton.mpr ⟨w, rfl⟩⟩
  | settled waiting before after d p finished w =>
      obtain ⟨early, others⟩ := List.forall_mem_append.mp launched
      obtain ⟨⟨before', equal⟩, late⟩ := List.forall_mem_cons.mp others
      have ofRun : Outcome.OfRun a ⟨d, a.settle d w.disk p⟩ := ⟨before', w.disk, by rw [← equal]⟩
      exact ⟨all, List.forall_mem_append.mpr ⟨early, late⟩,
        List.forall_mem_append.mpr ⟨settled, List.forall_mem_singleton.mpr ofRun⟩⟩
  | changed disk => exact ⟨all, launched, settled⟩

theorem Accounts.steps (accounts : s.Accounts a given) (steps : Steps a s t) :
    t.Accounts a given := by
  induction steps with
  | refl => exact accounts
  | tail _ step ih => exact ih.step step

/-- When all runs are over, each document has one result. -/
theorem Accounts.perm_finished (accounts : s.Accounts a given) (ended : s.IsOver) :
    (s.finished.map Outcome.document).Perm given := by
  have all := accounts.all
  rw [documents, ended.1, ended.2] at all
  exact all

/-- One document may be analyzed before any other is launched. -/
theorem steps_alone (a : Analyzer) (before after : List Document) (d : Document)
    (finished : List Outcome) (w : World) :
    Steps a ⟨before ++ d :: after, [], finished, w⟩
      ⟨before ++ after, [], finished ++ [⟨d, (a.analyze d w).1⟩], (a.analyze d w).2⟩ := by
  rw [Analyzer.analyze_eq]
  exact .tail (.single (.launched before after d [] finished w))
    (.settled (before ++ after) [] [] d (a.launch d w).1 finished (a.launch d w).2)

/-- The runs may finish in any order. -/
theorem exists_order (a : Analyzer) {order waiting : List Document} (perm : order.Perm waiting)
    (finished : List Outcome) (w : World) :
    ∃ (outcomes : List Outcome) (w' : World), outcomes.map Outcome.document = order ∧
      Steps a ⟨waiting, [], finished, w⟩ ⟨[], [], finished ++ outcomes, w'⟩ := by
  induction order generalizing waiting finished w with
  | nil =>
      rw [List.nil_perm.mp perm]
      exact ⟨[], w, rfl, by rw [List.append_nil]⟩
  | cons d order ih =>
      -- The first to finish runs alone, wherever it stands among the waiting ones.
      obtain ⟨before, after, rfl⟩ := List.append_of_mem (perm.mem_iff.mp List.mem_cons_self)
      have others : order.Perm (before ++ after) :=
        (List.perm_cons d).mp (perm.trans List.perm_middle)
      let first : Outcome := ⟨d, (a.analyze d w).1⟩
      obtain ⟨outcomes, w', ordered, steps⟩ := ih others (finished ++ [first]) (a.analyze d w).2
      rw [List.append_assoc, List.singleton_append] at steps
      exact ⟨first :: outcomes, w', by rw [List.map_cons, ordered],
        (steps_alone a before after d finished w).trans steps⟩

end Session

end LintReport
