import LintReport.Analyzer
import LintReport.Proofs.Disk.Folded
import LintReport.Proofs.Report.Collate

set_option autoImplicit false

/- A document is read where its path leads, and named by the normal form of that path. What it is
named by leads back to what it holds, unless a double dot of the path leads out of a link: then
the name is that of another file, or of none. -/
namespace LintReport

namespace Document

variable {disk : Disk} {p : Path} {language : String} {d : Document}

theorem ofContent_normalize (p : Path) (language : String) (version : Int) (content : List UInt8) :
    ofContent p.normalize language version content = ofContent p language version content := by
  rw [ofContent, Path.normalize_normalize, ofContent]

theorem contentAt?_of_read (same : disk.read d.path = .ok d.content) (q : Path) :
    d.contentAt? disk q = (disk.read q).toOption := by
  rw [contentAt?]
  split
  · next own =>
      rw [own, same]
      rfl
  · rfl

/-- A document that was read is one file: its own path leads to what it holds, so that the call
of the analyzer names that file, laying the document over the disk changes nothing, and what is
reported under its path stands where it does in those bytes. -/
theorem read_own_path (direct : disk.LeavesNoLink p)
    (read : Document.read disk p language = .ok d) :
    disk.read d.path = .ok d.content ∧ Document.read disk d.path language = .ok d ∧
    (∀ q, d.contentAt? disk q = (disk.read q).toOption) ∧
    ∀ (a : Analyzer) (output : List Char),
      let policy := PathPolicy.ofProfile a.profile d.path
      let result := Report.collate a.profile disk d output
      (a.invocation d).args.head? = some d.path.text ∧
      (d.path.IsText → (⟨d.path.text⟩ : Path) = d.path) ∧ d.path ∈ result.paths ∧
      List.Forall₂ (fun f w => w.range = Range.point (positionIn d.content f.fileOffset.toNat))
        (Report.findingsAt policy d.path (Finding.scan output))
        (((result.get? d.path).getD []).filter fun w => decide (w.severity = .warning)) := by
  obtain ⟨content, found, rfl⟩ := exists_of_read read
  have normal : (ofContent p language 0 content).path.IsNormal := isNormal_ofContent ..
  have own : disk.read (ofContent p language 0 content).path = .ok content :=
    Disk.read_normalize direct found
  refine ⟨own, ?_, contentAt?_of_read own, ?_⟩
  · rw [Document.read, own]
    exact congrArg Except.ok (ofContent_normalize p language 0 content)
  · intro a output policy result
    refine ⟨rfl, Path.IsText.mk_text, ?_, ?_⟩
    · exact (Report.mem_paths_collate disk a.profile normal output _).mpr (Or.inl rfl)
    · rw [Report.filter_warning_collate disk a.profile normal output normal,
        List.forall₂_map_right_iff, List.forall₂_same]
      intro f _
      rw [(Report.placed_warningAnew disk _ f).range, contentAt?, if_pos rfl, Option.getD_some]

/-- Through a link into a directory, and out of a directory in it again. -/
theorem read_own_path_linked :
    let file (c : UInt8) : Disk.Node := .file [c] false
    let src : Disk.Node := .directory [("a.c", file 97), ("sub", .directory [])]
    let disk : Disk := ⟨.directory [("w", .directory [("src", src), ("l", .link "src")])], ⟨"/w"⟩⟩
    let p : Path := ⟨"./l//sub/../a.c"⟩
    let d : Document := ⟨⟨"l/a.c"⟩, "c", 0, [97]⟩
    disk.LeavesNoLink p ∧ Document.read disk p "c" = .ok d ∧ disk.read d.path = .ok d.content := by
  intro file src disk p d
  have direct : disk.LeavesNoLink p := by decide +kernel
  have read : Document.read disk p "c" = .ok d := by decide +kernel
  exact ⟨direct, read, (read_own_path direct read).1⟩

/-- Out of a link, into the directory that holds its target: the document is named by a file with
another content. -/
theorem read_behind_link :
    let file (c : UInt8) : Disk.Node := .file [c] false
    let inner : Disk.Node := .directory [("x", .directory []), ("a.c", file 105)]
    let disk : Disk := ⟨.directory [("w", .directory
      [("d", inner), ("l", .link "d/x"), ("a.c", file 111)])], ⟨"/w"⟩⟩
    let p : Path := ⟨"/w/l/../a.c"⟩
    let d : Document := ⟨⟨"/w/a.c"⟩, "c", 0, [105]⟩
    Document.read disk p "c" = .ok d ∧ disk.read d.path = .ok [111] ∧ ¬ disk.LeavesNoLink p := by
  decide +kernel

end Document

end LintReport
