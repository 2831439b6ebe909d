import LintReport.Proofs.Diagnostic.Map
import LintReport.Proofs.Path.Grouped
import Mathlib.Algebra.GroupWithZero.Nat

set_option autoImplicit false

/- Any course of changes to a map. What it holds in the end is what was pushed, each diagnostic under
its own path and in order, and the number that is kept beside stays that of the diagnostics. -/
namespace LintReport.DiagnosticMap

open LintReport.Path (Same)

/-- A change of a map. -/
inductive Step where
  | ensure (path : Path)
  | push (path : Path) (d : Diagnostic)
  deriving DecidableEq, Repr

namespace Step

/-- The path that a change names. -/
def path : Step → Path
  | .ensure p => p
  | .push p _ => p

/-- The diagnostics that a change adds. -/
def added : Step → List Diagnostic
  | .ensure _ => []
  | .push _ d => [d]

def entry (s : Step) : Path × List Diagnostic := (s.path, s.added)

end Step

def apply (m : DiagnosticMap) : Step → DiagnosticMap
  | .ensure p => m.ensureEntry p
  | .push p d => m.push p d

def after (m : DiagnosticMap) (steps : List Step) : DiagnosticMap := steps.foldl apply m

/-- The map of a run on a file, or one without any file. -/
def start : Option Path → DiagnosticMap
  | none => empty
  | some primary => ofPrimary primary

/-- The diagnostics pushed under spellings of a path. -/
def pushedAt (steps : List Step) (p : Path) : List Diagnostic :=
  (steps.filter fun s => decide (Same s.path p)).flatMap Step.added

theorem files_apply (m : DiagnosticMap) (s : Step) :
    (m.apply s).files = m.files.extend s.entry := by
  cases s with
  | ensure p =>
      have nothing : (fun old : Option (List Diagnostic) => old.getD [] ++ []) =
          fun old => old.getD [] := by
        funext old
        exact List.append_nil _
      exact (congrArg (m.files.upsert p) nothing).symm
  | push p d => rfl

theorem total_apply (m : DiagnosticMap) (s : Step) :
    (m.apply s).total = m.total + s.added.length := by
  cases s <;> rfl

theorem wellFormed_apply {m : DiagnosticMap} (valid : m.WellFormed) (s : Step) :
    (m.apply s).WellFormed := by
  cases s with
  | ensure p => exact wellFormed_ensureEntry valid p
  | push p d => exact wellFormed_push valid p d

theorem wellFormed_after {m : DiagnosticMap} (valid : m.WellFormed) (steps : List Step) :
    (m.after steps).WellFormed := by
  induction steps generalizing m with
  | nil => exact valid
  | cons s steps ih => exact ih (wellFormed_apply valid s)

theorem total_after (m : DiagnosticMap) (steps : List Step) :
    (m.after steps).total = m.total + (steps.flatMap Step.added).length := by
  induction steps generalizing m with
  | nil => rfl
  | cons s steps ih =>
      have rest := ih (m.apply s)
      rw [total_apply] at rest
      rw [List.flatMap_cons, List.length_append, ← Nat.add_assoc]
      exact rest

theorem files_after (m : DiagnosticMap) (steps : List Step) :
    (m.after steps).files = (steps.map Step.entry).foldl PathMap.extend m.files := by
  induction steps generalizing m with
  | nil => rfl
  | cons s steps ih =>
      rw [List.map_cons, List.foldl_cons, ← files_apply]
      exact ih (m.apply s)

/-- A map of a run on a file has had that file ensured. -/
theorem start_eq_after (primary? : Option Path) :
    start primary? = empty.after (primary?.toList.map Step.ensure) := by
  cases primary? <;> rfl

theorem wellFormed_start (primary? : Option Path) : (start primary?).WellFormed := by
  rw [start_eq_after]
  exact wellFormed_after wellFormed_empty _

theorem files_after_start (primary? : Option Path) (steps : List Step) :
    ((start primary?).after steps).files =
      PathMap.grouped ((primary?.toList.map Step.ensure ++ steps).map Step.entry) := by
  rw [start_eq_after, files_after, files_after, ← List.foldl_append, ← List.map_append]
  rfl

theorem valuesAt_map_entry (steps : List Step) (p : Path) :
    PathMap.valuesAt (steps.map Step.entry) p = pushedAt steps p := by
  unfold PathMap.valuesAt pushedAt
  rw [List.filter_map, List.flatMap_map]
  rfl

theorem status_eq_empty_iff (m : DiagnosticMap) : m.status = "" ↔ m.total = 0 := by
  unfold status
  split
  · next none => exact iff_of_true rfl none
  · next some =>
      refine iff_of_false ?_ some
      intro empty
      rw [← String.toList_inj, String.toList_ofList] at empty
      cases empty

/-- To ensure an entry that is there changes nothing, and one that is not there is put among the
others with an empty list. -/
theorem ensureEntry_cases {m : DiagnosticMap} (valid : m.WellFormed) (p : Path) :
    (∀ ds, m.get? p = some ds → m.ensureEntry p = m) ∧
    (m.get? p = none → (m.ensureEntry p).total = m.total ∧ ∃ before behind,
      m.files.entries = before ++ behind ∧
      (m.ensureEntry p).files.entries = before ++ (p, []) :: behind) := by
  constructor
  · intro ds found
    have same := PathMap.upsert_of_find? valid.ordered found
      (f := fun old : Option (List Diagnostic) => old.getD []) rfl
    unfold ensureEntry
    rw [same]
  · intro absent
    exact ⟨rfl, PathMap.upsert_of_find?_none absent _⟩

/-- However a map came about, its number is that of the pushes, of all it holds, and of its errors and
warnings together. Its paths are those that were named, in strict order and as they were spelled
first. Under each lies what was pushed under its spellings, in order. -/
theorem after_start (primary? : Option Path) (steps : List Step) :
    let m := (start primary?).after steps
    let named := primary?.toList ++ steps.map Step.path
    m.total = (steps.flatMap Step.added).length ∧
    m.total = (m.files.values.map List.length).sum ∧
    m.total = m.errorCount + m.warningCount ∧
    (∀ p, p ∈ m.paths ↔ named.find? (fun q => decide (Same q p)) = some p) ∧
    m.paths.Pairwise (fun p q => p.compare q = .lt ∧ ¬ Same p q) ∧
    (∀ p, m.get? p = if ∃ q ∈ named, Same q p then some (pushedAt steps p) else none) ∧
    (∀ p, (∀ ds, m.get? p = some ds → m.ensureEntry p = m) ∧
      (m.get? p = none → (m.ensureEntry p).total = m.total ∧ ∃ before behind,
        m.files.entries = before ++ behind ∧
        (m.ensureEntry p).files.entries = before ++ (p, []) :: behind)) ∧
    (m.status = "" ↔ m.total = 0) := by
  intro m named
  have valid : m.WellFormed := wellFormed_after (wellFormed_start primary?) steps
  have files : m.files = _ := files_after_start primary? steps
  have paths : ((primary?.toList.map Step.ensure ++ steps).map Step.entry).map Prod.fst = named := by
    rw [List.map_map, List.map_append, List.map_map]
    exact congrArg (· ++ steps.map Step.path) (List.map_id _)
  have pushed (p : Path) :
      pushedAt (primary?.toList.map Step.ensure ++ steps) p = pushedAt steps p := by
    have nothing : pushedAt (primary?.toList.map Step.ensure) p = [] := by
      unfold pushedAt
      rw [List.flatMap_eq_nil_iff]
      intro s member
      obtain ⟨q, _, rfl⟩ := List.mem_map.mp (List.mem_of_mem_filter member)
      rfl
    rw [pushedAt, List.filter_append, List.flatMap_append, ← pushedAt, ← pushedAt, nothing,
      List.nil_append]
  refine ⟨?_, ?_, ?_, ?_, ?_, ?_, ensureEntry_cases valid, status_eq_empty_iff m⟩
  · have start : (start primary?).total = 0 := by cases primary? <;> rfl
    rw [total_after, start, Nat.zero_add]
  · rw [valid.counted, diagnostics, List.length_flatten]
  · rw [valid.counted, errorCount_add_warningCount]
  · intro p
    rw [DiagnosticMap.paths, files, PathMap.mem_keys_grouped, paths]
  · exact valid.ordered.keys.imp fun before => ⟨before, Path.not_same_of_lt before⟩
  · intro p
    have someNamed : (∃ e ∈ (primary?.toList.map Step.ensure ++ steps).map Step.entry, Same e.1 p) ↔
        ∃ q ∈ named, Same q p := by
      rw [← paths]
      simp only [List.mem_map, exists_exists_and_eq_and]
    rw [get?, files, PathMap.find?_grouped, valuesAt_map_entry, pushed]
    simp only [someNamed]

end LintReport.DiagnosticMap
