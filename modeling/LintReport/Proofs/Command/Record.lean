import LintReport.Command.Output
import LintReport.Proofs.Analyzer.Report
import LintReport.Proofs.Json.Line
import LintReport.Proofs.MapM
import LintReport.Proofs.Replacement.Token

set_option autoImplicit false

/- A report on a line of its own. What stands there is said member by member, as a reader of the
line finds it; members come in no particular order, the diagnostics of a file as they were found. A
path that is not UTF-8 has no place in it. -/
namespace LintReport

open LintReport.Json (Plain plain_record)

namespace Position

/-- Line and character, both counted from zero. -/
def WrittenAs (p : Position) (j : Json) : Prop :=
  j.IsObject [("line", .natural p.line.toNat), ("character", .natural p.character.toNat)]

theorem writtenAs_sorted (p : Position) : p.WrittenAs p.toJson.sorted :=
  Json.isObject_sorted_record _

end Position

namespace Range

def WrittenAs (r : Range) (j : Json) : Prop :=
  ∃ start stop, j.IsObject [("start", start), ("end", stop)] ∧
    r.start.WrittenAs start ∧ r.stop.WrittenAs stop

theorem writtenAs_sorted (r : Range) : r.WrittenAs r.toJson.sorted :=
  ⟨_, _, Json.isObject_sorted_record _, r.start.writtenAs_sorted, r.stop.writtenAs_sorted⟩

end Range

namespace Diagnostic

/-- The member for the suggested replacements is there only if there are some. -/
def WrittenAs (d : Diagnostic) (j : Json) : Prop :=
  ∃ range, d.range.WrittenAs range ∧
    j.IsObject ([("range", range),
        ("severity", .text (if d.severity = .error then "error" else "warning")),
        ("message", .text d.message), ("source", .text "clang-tidy")] ++
      match d.fix with
      | none => []
      | some token => [("fix", .text token)])

theorem writtenAs_sorted (d : Diagnostic) : d.WrittenAs d.toJson.sorted := by
  obtain ⟨range, severity, message, fix⟩ := d
  refine ⟨range.toJson.sorted, range.writtenAs_sorted, ?_⟩
  have object := Json.isObject_sorted_record ([("range", range.toJson),
    ("severity", .text severity.label), ("message", .text message), ("source", .text source)] ++
      (fix.map fun token => ("fix", .text token)).toList)
  cases severity <;> cases fix <;> exact object

theorem plain_toJson (d : Diagnostic) : Plain d.toJson := by
  refine plain_record ?_
  cases d.fix with
  | none =>
      simp only [Option.map_none, Option.toList_none, List.append_nil, List.forall_mem_cons,
        List.not_mem_nil, false_imp_iff, implies_true, and_true]
      exact ⟨d.range.plain_toJson, .text _, .text _, .text _⟩
  | some token =>
      simp only [Option.map_some, Option.toList_some, List.cons_append, List.nil_append,
        List.forall_mem_cons, List.not_mem_nil, false_imp_iff, implies_true, and_true]
      exact ⟨d.range.plain_toJson, .text _, .text _, .text _, .text _⟩

end Diagnostic

/-- The files of a report: a member for each path, with the diagnostics in their order. -/
def FilesWrittenAs (files : List (Path × List Diagnostic)) (j : Json) : Prop :=
  ∃ members, j.IsObject members ∧ List.Forall₂ (fun e m => e.1 = ⟨m.1⟩ ∧
    ∃ items, m.2 = .array items ∧ List.Forall₂ Diagnostic.WrittenAs e.2 items) files members

namespace DiagnosticMap

/-- The member for a file. -/
def entryJson (path : String) (ds : List Diagnostic) : String × Json :=
  (path, .array (ds.map Diagnostic.toJson))

theorem plain_entryJson (path : String) (ds : List Diagnostic) : Plain (entryJson path ds).2 := by
  refine .array fun item member => ?_
  obtain ⟨d, _, rfl⟩ := List.mem_map.mp member
  exact d.plain_toJson

theorem toJson?_eq_some_iff {m : DiagnosticMap} {j : Json} : m.toJson? = some j ↔
    ∃ members, List.Forall₂ (fun e member => ∃ path : String, e.1 = ⟨path⟩ ∧
        entryJson path e.2 = member) m.files.entries members ∧
      .record [("files", .record members), ("total", .natural m.total)] = j := by
  rw [toJson?, Option.bind_eq_bind, Option.bind_eq_some_iff]
  refine exists_congr fun members => and_congr ?_ Option.some_inj
  rw [mapM_eq_some_iff]
  refine iff_of_eq (congrArg (fun R => List.Forall₂ R m.files.entries members) ?_)
  funext e member
  rw [Option.map_eq_some_iff]
  exact propext (exists_congr fun path => and_congr_left fun _ => Path.text?_eq_some_iff)

/-- One path that is not UTF-8 keeps the whole map from being written. -/
theorem toJson?_eq_none_iff {m : DiagnosticMap} :
    m.toJson? = none ↔ ∃ p ∈ m.paths, ¬ p.IsText := by
  rw [toJson?, Option.bind_eq_bind, Option.bind_eq_none_iff]
  simp only [reduceCtorEq, imp_false, ← Option.eq_none_iff_forall_ne_some, mapM_eq_none_iff,
    Option.map_eq_none_iff, Path.isText_iff, not_not, paths, PathMap.keys, List.mem_map,
    exists_exists_and_eq_and]

theorem filesWrittenAs_sorted {files : List (Path × List Diagnostic)}
    {members : List (String × Json)} (written : List.Forall₂ (fun e member =>
      ∃ path : String, e.1 = ⟨path⟩ ∧ entryJson path e.2 = member) files members) :
    FilesWrittenAs files (Json.record members).sorted := by
  refine ⟨_, Json.isObject_sorted_record members, List.forall₂_map_right_iff.mpr ?_⟩
  refine written.imp ?_
  rintro ⟨p, ds⟩ _ ⟨path, file, rfl⟩
  refine ⟨file, (ds.map Diagnostic.toJson).map Json.sorted, ?_, ?_⟩
  · rw [entryJson, Json.sorted, Json.sortedItems_eq]
  · rw [List.map_map]
    exact List.forall₂_map_right_iff.mpr (List.forall₂_same.mpr fun d _ => d.writtenAs_sorted)

/-- The files with the diagnostics found on them, and the number of all diagnostics. -/
def WrittenAs (m : DiagnosticMap) (j : Json) : Prop :=
  ∃ files, j.IsObject [("files", files), ("total", .natural m.diagnostics.length)] ∧
    FilesWrittenAs m.files.entries files

theorem writtenAs_sorted {m : DiagnosticMap} (valid : m.WellFormed) {j : Json}
    (written : m.toJson? = some j) : Plain j ∧ m.WrittenAs j.sorted := by
  obtain ⟨members, all, rfl⟩ := toJson?_eq_some_iff.mp written
  constructor
  · refine plain_record (List.forall_mem_cons.mpr ⟨plain_record ?_, ?_⟩)
    · intro member inFiles
      obtain ⟨e, _, path, _, rfl⟩ := exists_of_mem_forall₂ all.flip inFiles
      exact plain_entryJson path e.2
    · exact List.forall_mem_singleton.mpr (.natural _)
  · refine ⟨_, ?_, filesWrittenAs_sorted all⟩
    have counted : m.diagnostics.length = m.total := valid.counted.symm
    rw [counted]
    exact Json.isObject_sorted_record _

end DiagnosticMap

namespace Report

/-- All paths that a report holds are UTF-8. -/
def IsWritable (r : Report) : Prop :=
  r.document.path.IsText ∧ ∀ p ∈ r.diagnostics.paths, p.IsText

/-- A line that holds one object: the document, its language, and what was found. -/
structure WrittenOn (r : Report) (line : List Char) : Prop where
  whole : '\n' ∉ line
  object : ∃ j document diagnostics, Json.parse? line = some j ∧
    j.IsObject [("document", .text document), ("language", .text r.document.language),
      ("diagnostics", diagnostics)] ∧
    r.document.path = ⟨document⟩ ∧ r.diagnostics.WrittenAs diagnostics

end Report

namespace Command

open LintReport.Report (IsWritable)

theorem reportJson?_eq_none_iff {r : Report} : reportJson? r = none ↔ ¬ r.IsWritable := by
  rw [reportJson?, IsWritable, not_and_or, Path.isText_iff, not_not]
  cases written : r.document.path.text? with
  | none => simp
  | some document =>
      have diagnostics := @DiagnosticMap.toJson?_eq_none_iff r.diagnostics
      cases found : r.diagnostics.toJson? with
      | none => simpa [found] using diagnostics
      | some j => simpa [found] using diagnostics

/-- A report whose paths are UTF-8 has a line, and the line holds it. -/
theorem exists_reportJson? {r : Report} (writable : r.IsWritable)
    (valid : r.diagnostics.WellFormed) : ∃ j, reportJson? r = some j ∧ r.WrittenOn j.render := by
  obtain ⟨document, path⟩ := writable.1
  have written := Path.text?_eq_some_iff.mpr path
  have some : r.diagnostics.toJson? ≠ none := fun none =>
    let ⟨_, member, other⟩ := DiagnosticMap.toJson?_eq_none_iff.mp none
    other (writable.2 _ member)
  obtain ⟨diagnostics, found⟩ := Option.ne_none_iff_exists'.mp some
  obtain ⟨plain, tells⟩ := DiagnosticMap.writtenAs_sorted valid found
  let members : List (String × Json) := [("document", .text document),
    ("language", .text r.document.language), ("diagnostics", diagnostics)]
  have whole : Plain (Json.record members) := by
    refine plain_record ?_
    simp only [members, List.forall_mem_cons, List.not_mem_nil, false_imp_iff, implies_true,
      and_true]
    exact ⟨.text _, .text _, plain⟩
  refine ⟨(Json.record members).sorted, ?_, Json.newline_not_mem_render _, ?_⟩
  · rw [reportJson?, written, found]
    rfl
  · exact ⟨_, document, diagnostics.sorted, Json.parse?_render whole.sorted,
      Json.isObject_sorted_record members, path, tells⟩

end Command

end LintReport
