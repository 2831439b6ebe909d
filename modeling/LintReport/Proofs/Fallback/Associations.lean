import LintReport.Fallback
import LintReport.Proofs.Analyzer.Report

set_option autoImplicit false

/- What is learned from reports. A file belongs to the document of the last report that reports
on it, and only from the report of such a document on. -/
namespace LintReport

open LintReport.Path (Same)

namespace PathMap

variable {α : Type}

theorem ordered_foldl_insert (ps : List Path) (a : α) {m : PathMap α} (ordered : m.Ordered) :
    (ps.foldl (fun m p => m.insert p a) m).Ordered := by
  induction ps generalizing m with
  | nil => exact ordered
  | cons p ps ih => exact ih (ordered_upsert m ordered p _)

/-- One value put under some paths is found under their spellings. -/
theorem find?_foldl_insert (ps : List Path) (a : α) {m : PathMap α} (ordered : m.Ordered)
    (q : Path) : (ps.foldl (fun m p => m.insert p a) m).find? q =
      if ∃ p ∈ ps, Same p q then some a else m.find? q := by
  induction ps generalizing m with
  | nil => simp
  | cons p ps ih =>
      have next : (m.insert p a).Ordered := ordered_upsert m ordered p _
      rw [List.foldl_cons, ih next, insert, find?_upsert m ordered p q]
      -- All of them get the same value, so it does not matter which of two spellings is later.
      by_cases later : ∃ p ∈ ps, Same p q
      · rw [if_pos later, if_pos ((List.exists_mem_cons_iff _ _ _).mpr (Or.inr later))]
      · simp only [List.exists_mem_cons_iff, later, or_false, if_false]

theorem exists_key_of_find? {m : PathMap α} {q : Path} {a : α} (found : m.find? q = some a) :
    ∃ key ∈ m.keys, Same key q := by
  obtain ⟨e, present, _⟩ := Option.map_eq_some_iff.mp found
  refine ⟨e.1, List.mem_map_of_mem (List.mem_of_find?_eq_some present), ?_⟩
  simpa using List.find?_some present

end PathMap

namespace Report

/-- Whether a file is reported on does not depend on how its path is spelled. -/
theorem reportsOn_congr (r : Report) {p q : Path} (same : Same p q) :
    r.ReportsOn p ↔ r.ReportsOn q := by
  rw [ReportsOn, ReportsOn, Same, Same, same, DiagnosticMap.get?_congr r.diagnostics same]

theorem exists_mem_reportedOn (r : Report) (q : Path) :
    (∃ p ∈ r.reportedOn, Same p q) ↔ r.ReportsOn q := by
  constructor
  · rintro ⟨p, member, same⟩
    have reported := of_decide_eq_true (List.mem_filter.mp member).2
    exact (r.reportsOn_congr same).mp reported
  · intro reported
    cases found : r.diagnostics.get? q with
    | none => exact absurd (by rw [found]; rfl) reported.2
    | some ds =>
        obtain ⟨key, member, same⟩ := PathMap.exists_key_of_find? found
        have reported' := (r.reportsOn_congr same).mpr reported
        exact ⟨key, List.mem_filter.mpr ⟨member, decide_eq_true reported'⟩, same⟩

/-- The last of some reports that reports on a file. -/
def latest? (rs : List Report) (q : Path) : Option Report :=
  rs.reverse.find? fun r => decide (r.ReportsOn q)

theorem latest?_cons (r : Report) (rs : List Report) (q : Path) :
    latest? (r :: rs) q = (latest? rs q).or (if r.ReportsOn q then some r else none) := by
  rw [latest?, List.reverse_cons, List.find?_append, latest?, List.find?_singleton]
  simp only [decide_eq_true_eq]

theorem latest?_eq_some_iff {rs : List Report} {q : Path} {r : Report} :
    latest? rs q = some r ↔ r.ReportsOn q ∧ ∃ earlier later, rs = earlier ++ r :: later ∧
      ∀ r' ∈ later, ¬ r'.ReportsOn q := by
  rw [latest?, List.find?_eq_some_iff_append, decide_eq_true_iff]
  refine and_congr_right fun _ => ?_
  constructor
  · rintro ⟨after, before, split, none⟩
    refine ⟨before.reverse, after.reverse, ?_, ?_⟩
    · have whole := congrArg List.reverse split
      simpa using whole
    · intro r' member
      simpa using none r' (List.mem_reverse.mp member)
  · rintro ⟨earlier, later, rfl, none⟩
    refine ⟨later.reverse, earlier.reverse, by simp, ?_⟩
    intro r' member
    simpa using none r' (List.mem_reverse.mp member)

end Report

namespace Associations

/-- What recording keeps: the files are in order, and the documents named by normal forms. -/
structure Valid (a : Associations) : Prop where
  ordered : a.sources.Ordered
  normal : ∀ q source, a.source? q = some source → source.IsNormal

@[simp] theorem valid_empty : empty.Valid := by
  refine ⟨PathMap.ordered_empty, ?_⟩
  intro q source found
  rw [source?_empty] at found
  cases found

variable {a : Associations} {r : Report}

/-- From the report of a run are learned the files that it reports on. -/
theorem sources_record (ofRun : r.OfRun) : (a.record r).sources =
    r.reportedOn.foldl (fun sources p => sources.insert p r.document.path) a.sources := by
  rw [ofRun.reportedOn_eq]
  rfl

theorem source?_record (valid : a.Valid) (ofRun : r.OfRun) (q : Path) :
    (a.record r).source? q =
      if r.ReportsOn q then some r.document.path else a.source? q := by
  rw [source?, sources_record ofRun, PathMap.find?_foldl_insert _ _ valid.ordered]
  simp only [Report.exists_mem_reportedOn]
  rfl

theorem valid_record (valid : a.Valid) (ofRun : r.OfRun) : (a.record r).Valid := by
  refine ⟨?_, ?_⟩
  · rw [sources_record ofRun]
    exact PathMap.ordered_foldl_insert _ _ valid.ordered
  · intro q source found
    rw [source?_record valid ofRun] at found
    split at found
    · exact Option.some.inj found ▸ ofRun.normal
    · exact valid.normal q source found

/-- Nothing is learned from the report of a run without diagnostics. -/
theorem record_of_total (a : Associations) (ofRun : r.OfRun) (clean : r.total = 0) :
    a.record r = a := by
  have same : (a.record r).sources = a.sources := by
    rw [sources_record ofRun, Report.reportedOn_of_total ofRun.valid clean, List.foldl_nil]
  calc a.record r
    _ = ⟨(a.record r).sources⟩ := rfl
    _ = ⟨a.sources⟩ := by rw [same]
    _ = a := rfl

theorem valid_foldl_record {rs : List Report} (valid : a.Valid) (ofRuns : ∀ r ∈ rs, r.OfRun) :
    (rs.foldl record a).Valid := by
  induction rs generalizing a with
  | nil => exact valid
  | cons r rs ih =>
      exact ih (valid_record valid (ofRuns r List.mem_cons_self))
        fun r' member => ofRuns r' (List.mem_cons_of_mem r member)

theorem sources_foldl_record {rs : List Report} (ofRuns : ∀ r ∈ rs, r.OfRun) (a : Associations) :
    (rs.foldl record a).sources = rs.foldl (fun sources r =>
      r.reportedOn.foldl (fun sources p => sources.insert p r.document.path) sources)
        a.sources := by
  induction rs generalizing a with
  | nil => rfl
  | cons r rs ih =>
      have others := ih (fun r' member => ofRuns r' (List.mem_cons_of_mem r member)) (a.record r)
      rw [List.foldl_cons, others, sources_record (ofRuns r List.mem_cons_self), List.foldl_cons]

/-- After some reports a file belongs to the document of the last one that reports on it. -/
theorem source?_foldl_record {rs : List Report} (valid : a.Valid) (ofRuns : ∀ r ∈ rs, r.OfRun)
    (q : Path) : (rs.foldl record a).source? q =
      ((Report.latest? rs q).map fun r => r.document.path).or (a.source? q) := by
  induction rs generalizing a with
  | nil => rfl
  | cons r rs ih =>
      have first := ofRuns r List.mem_cons_self
      have others := ih (valid_record valid first) fun r' member =>
        ofRuns r' (List.mem_cons_of_mem r member)
      rw [List.foldl_cons, others, source?_record valid first, Report.latest?_cons]
      cases Report.latest? rs q with
      | some r' => rfl
      | none =>
          rw [Option.none_or]
          split <;> rfl

end Associations

end LintReport
