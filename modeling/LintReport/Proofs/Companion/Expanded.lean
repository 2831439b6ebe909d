import Mathlib.Data.List.Forall2
import LintReport.Proofs.Companion.Includes
import LintReport.Proofs.Disk.Listing

set_option autoImplicit false

/- What the settings files of the folders say together: their patterns expanded in order, each
directory where it stands first, and the last standards. -/
namespace LintReport.Companion

open LintReport.Path (Same)
open LintReport.Disk.Node (wellNamed_singleton distinct_singleton subfolders_eq folders_eq
  topFolders_eq)

/-- What a pattern stands for. -/
inductive Expands (disk : Disk) (pattern : Path) : List Path → Prop
  | all {base : List Char} {paths : List Path} (ends : pattern.text.toList = base ++ "/**".toList)
      (below : disk.Lists ⟨Utf8.encode base⟩ true paths) :
      Expands disk pattern (⟨Utf8.encode base⟩ :: paths)
  | top {base : List Char} {paths : List Path} (ends : pattern.text.toList = base ++ "/*".toList)
      (below : disk.Lists ⟨Utf8.encode base⟩ false paths) :
      Expands disk pattern (⟨Utf8.encode base⟩ :: paths)
  | itself (notAll : ¬ "/**".toList <:+ pattern.text.toList)
      (notTop : ¬ "/*".toList <:+ pattern.text.toList) : Expands disk pattern [pattern]

/-- The entries that a folder contributes. -/
inductive Contributes (disk : Disk) (folder : Path) : List CompanionEntry → Prop
  | file {text : List Char} {entries : List CompanionEntry}
      (content : disk.readText (fileIn folder) = .ok text)
      (parsed : CompanionEntry.parse? text = some entries) : Contributes disk folder entries
  | unreadable {e : DiskError} (failed : disk.readText (fileIn folder) = .error e) :
      Contributes disk folder []
  | malformed {text : List Char} (content : disk.readText (fileIn folder) = .ok text)
      (failed : CompanionEntry.parse? text = none) : Contributes disk folder []

theorem before?_eq_none {ending text : List Char} :
    before? ending text = none ↔ ¬ ending <:+ text := by
  rw [before?, ← List.isSuffixOf_iff_suffix]
  split
  · next ends => exact iff_of_false (Option.some_ne_none _) (not_not_intro ends)
  · next other => exact iff_of_true rfl other

theorem expands_expand {disk : Disk} (wellNamed : disk.root.WellNamed)
    (distinct : disk.root.Distinct) (pattern : Path) :
    Expands disk pattern (expand disk pattern) := by
  unfold expand
  dsimp only
  split
  · next base ends =>
      have below := Disk.lists_foldersBelow wellNamed distinct true ⟨Utf8.encode base⟩
      exact .all (eq_append_of_before? ends) below
  · next notAll =>
      split
      · next base ends =>
          have below := Disk.lists_foldersBelow wellNamed distinct false ⟨Utf8.encode base⟩
          exact .top (eq_append_of_before? ends) below
      · next notTop =>
          exact .itself (before?_eq_none.mp notAll) (before?_eq_none.mp notTop)

theorem contributes_entriesOf (disk : Disk) (folder : Path) :
    Contributes disk folder (entriesOf disk folder) := by
  unfold entriesOf
  split
  · next text content =>
      cases parsed : CompanionEntry.parse? text with
      | none => exact .malformed content parsed
      | some entries => exact .file content parsed
  · next e failed => exact .unreadable failed

/-- Adding in turn keeps the first spelling of each path. -/
theorem foldl_addPath (paths ps : List Path) :
    ps.foldl addPath paths.reverse =
      List.eraseDupsBy.loop (fun p q => decide (Same p q)) ps paths := by
  induction ps generalizing paths with
  | nil => rfl
  | cons p ps ih =>
      have symmetric : (paths.reverse.any fun q => decide (Same q p)) =
          paths.any fun q => decide (Same p q) := by
        rw [List.any_reverse]
        simp only [Same, eq_comm]
      rw [List.foldl_cons, addPath, symmetric, List.eraseDupsBy.loop]
      split
      · next there => rw [there, ih]
      · next absent =>
          rw [Bool.not_eq_true] at absent
          rw [absent, ← List.reverse_cons, ih]

section Standards

variable {disk : Disk} {folders : List WorkspaceFolder}
  (standard : CompanionEntry → Option String) (kept : Companion → Option String)
  (takes : ∀ folder c entry,
    kept (absorb disk folders folder c entry) = (standard entry).or (kept c))
include takes

theorem kept_foldl_absorb (folder : Path) (entries : List CompanionEntry) (c : Companion) :
    kept (entries.foldl (absorb disk folders folder) c) =
      (entries.filterMap standard).getLast?.or (kept c) := by
  induction entries generalizing c with
  | nil => rfl
  | cons entry entries ih =>
      rw [List.foldl_cons, ih, takes, ← Option.or_assoc]
      cases given : standard entry with
      | none => rw [List.filterMap_cons_none given, Option.or_none]
      | some value =>
          rw [List.filterMap_cons_some given, ← List.singleton_append, List.getLast?_append]
          rfl

/-- The last entry with a standard decides, whatever folder it stands in. -/
theorem kept_foldl (given : List WorkspaceFolder) (c : Companion) :
    kept (given.foldl (fun c folder =>
        (entriesOf disk folder.path).foldl (absorb disk folders folder.path) c) c) =
      ((given.flatMap fun folder => entriesOf disk folder.path).filterMap standard).getLast?.or
        (kept c) := by
  induction given generalizing c with
  | nil => rfl
  | cons folder given ih =>
      rw [List.foldl_cons, ih, kept_foldl_absorb standard kept takes, List.flatMap_cons,
        List.filterMap_append, List.getLast?_append, Option.or_assoc]

end Standards

/-- In a tree without two entries of one name beside each other the directories are those that the
patterns of all folders stand for, in order and each where it stands first. The standards are the
last ones that are set. A folder whose settings are missing or cannot be read contributes none. -/
theorem read_expanded (disk : Disk) (folders : List WorkspaceFolder)
    (wellNamed : disk.root.WellNamed) (distinct : disk.root.Distinct) :
    let entries := folders.flatMap fun folder => entriesOf disk folder.path
    (∃ expansions, List.Forall₂ (Expands disk) (patterns disk folders) expansions ∧
      (read disk folders).includePaths =
        expansions.flatten.eraseDupsBy fun p q => decide (Same p q)) ∧
      (read disk folders).cStandard = (entries.filterMap (·.cStandard)).getLast? ∧
      (read disk folders).cppStandard = (entries.filterMap (·.cppStandard)).getLast? ∧
      ∀ folder ∈ folders, Contributes disk folder.path (entriesOf disk folder.path) := by
  refine ⟨⟨(patterns disk folders).map (expand disk), ?_, ?_⟩, ?_, ?_, ?_⟩
  · rw [List.forall₂_map_right_iff, List.forall₂_same]
    exact fun pattern _ => expands_expand wellNamed distinct pattern
  · rw [includePaths_read, ← List.flatMap_def, List.eraseDupsBy]
    exact foldl_addPath [] _
  · rw [read, kept_foldl CompanionEntry.cStandard Companion.cStandard fun _ _ _ => rfl]
    exact Option.or_none
  · rw [read, kept_foldl CompanionEntry.cppStandard Companion.cppStandard fun _ _ _ => rfl]
    exact Option.or_none
  · exact fun folder _ => contributes_entriesOf disk folder.path

theorem read_expanded_cyclic :
    let settings := "\x7b\"configurations\":[\x7b\"includePath\":[\"lib/**\",\"lib/*\"]," ++
      "\"cStandard\":\"c11\"\x7d,\x7b\"includePath\":[\"./src/\"]\x7d]\x7d"
    let editor (text : String) : Disk.Node :=
      .directory [("c_cpp_properties.json", .file (Utf8.encode text.toList) false)]
    let b : Disk.Node := .directory [("c", .directory [])]
    let lib : Disk.Node := .directory [("z", .directory []), ("loop", .link ".."), ("b", b)]
    let w : Disk.Node := .directory [(".vscode", editor settings), ("lib", lib)]
    let v : Disk.Node := .directory [(".vscode", editor "[")]
    let disk : Disk := ⟨.directory [("w", w), ("v", v)], ⟨"/w"⟩⟩
    let folders := [WorkspaceFolder.ofPath ⟨"/w"⟩, WorkspaceFolder.ofPath ⟨"/v"⟩]
    disk.root.WellNamed ∧ disk.root.Distinct ∧
      patterns disk folders = [⟨"/w/lib/**"⟩, ⟨"/w/lib/*"⟩, ⟨"/w/src"⟩] ∧
      (∃ expansions, List.Forall₂ (Expands disk) (patterns disk folders) expansions ∧
        (read disk folders).includePaths =
          expansions.flatten.eraseDupsBy fun p q => decide (Same p q)) ∧
      (read disk folders).includePaths =
        [⟨"/w/lib"⟩, ⟨"/w/lib/b"⟩, ⟨"/w/lib/b/c"⟩, ⟨"/w/lib/z"⟩, ⟨"/w/src"⟩] ∧
      (read disk folders).cStandard = some "c11" ∧ Contributes disk ⟨"/v"⟩ [] := by
  intro settings editor b lib w v disk folders
  have editorNamed (text : String) : (editor text).WellNamed :=
    wellNamed_singleton (by decide) (.file _ _ _)
  have editorDistinct (text : String) : (editor text).Distinct :=
    distinct_singleton (.file _ _ _)
  have leafNamed : (Disk.Node.directory []).WellNamed := .directory (by simp) (by simp)
  have leafDistinct : (Disk.Node.directory []).Distinct := .directory List.nodup_nil (by simp)
  have bNamed : b.WellNamed := wellNamed_singleton (by decide) leafNamed
  have bDistinct : b.Distinct := distinct_singleton leafDistinct
  have libNamed : lib.WellNamed :=
    .directory (by decide +kernel) (by simpa [lib] using ⟨leafNamed, .link _, bNamed⟩)
  have libDistinct : lib.Distinct :=
    .directory (by decide +kernel) (by simpa [lib] using ⟨leafDistinct, .link _, bDistinct⟩)
  have wellNamed : disk.root.WellNamed := by
    have wNamed : w.WellNamed :=
      .directory (by decide +kernel) (by simpa [w] using ⟨editorNamed settings, libNamed⟩)
    have vNamed : v.WellNamed := wellNamed_singleton (by decide) (editorNamed _)
    exact .directory (by decide +kernel) (by simpa using ⟨wNamed, vNamed⟩)
  have distinct : disk.root.Distinct := by
    have wDistinct : w.Distinct :=
      .directory (by decide +kernel) (by simpa [w] using ⟨editorDistinct settings, libDistinct⟩)
    have vDistinct : v.Distinct := distinct_singleton (editorDistinct _)
    exact .directory (by decide +kernel) (by simpa using ⟨wDistinct, vDistinct⟩)
  have given : patterns disk folders = [⟨"/w/lib/**"⟩, ⟨"/w/lib/*"⟩, ⟨"/w/src"⟩] := by
    decide +kernel
  have inLib : lib.subfolders = [(("b" : FileName), b), (("z" : FileName), .directory [])] :=
    subfolders_eq libDistinct (List.Perm.swap _ _ _) (List.pairwise_pair.mpr (by decide))
  have found : disk.find? ⟨"/w/lib"⟩ = .ok lib := by
    simp only [disk, w, v, lib, b, editor, settings]
    rfl
  have deep : disk.foldersBelow true ⟨"/w/lib"⟩ =
      [⟨"/w/lib/b"⟩, ⟨"/w/lib/b/c"⟩, ⟨"/w/lib/z"⟩] := by
    have all : disk.foldersBelow true ⟨"/w/lib"⟩ = lib.folders ⟨"/w/lib"⟩ := by
      simp only [Disk.foldersBelow, found, if_true]
    rw [all, folders_eq, inLib]
    decide +kernel
  have top : disk.foldersBelow false ⟨"/w/lib"⟩ = [⟨"/w/lib/b"⟩, ⟨"/w/lib/z"⟩] := by
    have all : disk.foldersBelow false ⟨"/w/lib"⟩ = lib.topFolders ⟨"/w/lib"⟩ := by
      simp only [Disk.foldersBelow, found, Bool.false_eq_true, if_false]
    rw [all, topFolders_eq, inLib]
    decide +kernel
  have paths : (read disk folders).includePaths =
      [⟨"/w/lib"⟩, ⟨"/w/lib/b"⟩, ⟨"/w/lib/b/c"⟩, ⟨"/w/lib/z"⟩, ⟨"/w/src"⟩] := by
    have expanded : (patterns disk folders).flatMap (expand disk) =
        ⟨"/w/lib"⟩ :: disk.foldersBelow true ⟨"/w/lib"⟩ ++
          (⟨"/w/lib"⟩ :: disk.foldersBelow false ⟨"/w/lib"⟩ ++ [⟨"/w/src"⟩]) := by
      rw [given]
      simp only [List.flatMap_cons, List.flatMap_nil, expand, Path.text_mk]
      rfl
    rw [includePaths_read, expanded, deep, top]
    decide +kernel
  obtain ⟨expansions, c, _, contributed⟩ := read_expanded disk folders wellNamed distinct
  have broken := contributed (WorkspaceFolder.ofPath ⟨"/v"⟩) (by simp [folders])
  have none : entriesOf disk (WorkspaceFolder.ofPath ⟨"/v"⟩).path = [] := by decide +kernel
  rw [none] at broken
  exact ⟨wellNamed, distinct, given, expansions, paths, c.trans (by decide +kernel), broken⟩

/-- A directory whose entries cannot be listed is there itself, and nothing below it is. -/
theorem includePaths_unlisted :
    let settings := "\x7b\"configurations\":[\x7b\"includePath\":[\"lib/**\"]\x7d]\x7d"
    let editor : Disk.Node :=
      .directory [("c_cpp_properties.json", .file (Utf8.encode settings.toList) false)]
    let closed : Disk.Node := .directory [("inner", .directory [])] ⟨false, true⟩
    let w : Disk.Node := .directory [(".vscode", editor), ("lib", .directory [("closed", closed)])]
    let disk : Disk := ⟨.directory [("w", w)], ⟨"/w"⟩⟩
    let folders := [WorkspaceFolder.ofPath ⟨"/w"⟩]
    patterns disk folders = [⟨"/w/lib/**"⟩] ∧
      disk.find? ⟨"/w/lib/closed"⟩ = .ok closed ∧
      disk.find? ⟨"/w/lib/closed/inner"⟩ = .ok (.directory []) ∧
      (read disk folders).includePaths = [⟨"/w/lib"⟩, ⟨"/w/lib/closed"⟩] ∧
      ⟨"/w/lib/closed/inner"⟩ ∉ (read disk folders).includePaths := by
  intro settings editor closed w disk folders
  have given : patterns disk folders = [⟨"/w/lib/**"⟩] := by decide +kernel
  have paths : (read disk folders).includePaths = [⟨"/w/lib"⟩, ⟨"/w/lib/closed"⟩] := by
    decide +kernel
  refine ⟨given, rfl, rfl, paths, ?_⟩
  rw [paths]
  decide +kernel

end LintReport.Companion
