import LintReport.Profile
import LintReport.Proofs.Disk.Folders
import LintReport.Proofs.Path.Shown

set_option autoImplicit false

/- The directories that a profile passes on to the compiler. In folders with absolute paths they
are absolute and in normal form, but for a pattern over the root: what stands in front of its last
slash is the empty path. -/
namespace LintReport

open LintReport.Path (IsRooted Same)

/-- Behind an absolute folder each text means an absolute path in normal form. -/
theorem Workspace.isRooted_resolve {folder : Path} (absolute : folder.isAbsolute = true)
    (workingFolder : Path) (folders : List WorkspaceFolder) (raw : String) :
    (resolve workingFolder folder folders raw).IsRooted := by
  unfold resolve
  dsimp only
  have joined := Path.isAbsolute_join absolute ⟨substitute folder folders raw⟩
  have full := Path.isAbsolute_absolute? joined workingFolder
  exact ⟨Path.isAbsolute_normalize full, Path.isNormal_normalize _⟩

namespace Companion

variable (disk : Disk) (folders : List WorkspaceFolder)

/-- The patterns in the settings files of all folders. -/
def patterns : List Path :=
  folders.flatMap fun folder => (entriesOf disk folder.path).flatMap fun entry =>
    entry.includePath.map (Workspace.resolve disk.workingFolder folder.path folders)

theorem isRooted_of_mem_patterns {disk : Disk} {folders : List WorkspaceFolder}
    (absolute : ∀ folder ∈ folders, folder.path.isAbsolute = true) {pattern : Path}
    (member : pattern ∈ patterns disk folders) : pattern.IsRooted := by
  obtain ⟨folder, inFolders, inFolder⟩ := List.mem_flatMap.mp member
  obtain ⟨entry, _, inEntry⟩ := List.mem_flatMap.mp inFolder
  obtain ⟨raw, _, rfl⟩ := List.mem_map.mp inEntry
  exact Workspace.isRooted_resolve (absolute folder inFolders) _ _ raw

theorem includePaths_foldl_absorb (folder : Path) (entries : List CompanionEntry)
    (c : Companion) :
    (entries.foldl (absorb disk folders folder) c).includePaths =
      (entries.flatMap (entryPaths disk folders folder)).foldl addPath c.includePaths := by
  induction entries generalizing c with
  | nil => rfl
  | cons entry entries ih =>
      rw [List.foldl_cons, ih, List.flatMap_cons, List.foldl_append]
      rfl

/-- All patterns are expanded in turn, and a directory is added once. -/
theorem includePaths_read :
    (read disk folders).includePaths =
      ((patterns disk folders).flatMap (expand disk)).foldl addPath [] := by
  have all (given : List WorkspaceFolder) (c : Companion) :
      (given.foldl (fun c folder =>
        (entriesOf disk folder.path).foldl (absorb disk folders folder.path) c) c).includePaths =
      (given.flatMap fun folder => (entriesOf disk folder.path).flatMap
        (entryPaths disk folders folder.path)).foldl addPath c.includePaths := by
    induction given generalizing c with
    | nil => rfl
    | cons folder given ih =>
        rw [List.foldl_cons, ih, List.flatMap_cons, List.foldl_append, includePaths_foldl_absorb]
  rw [read, all]
  simp only [patterns, List.flatMap_assoc, List.flatMap_map]
  rfl

section Added

variable {paths ps : List Path} {p : Path}

theorem mem_of_mem_addPath {q : Path} (member : p ∈ addPath paths q) : p ∈ paths ∨ p = q := by
  unfold addPath at member
  split at member
  · exact Or.inl member
  · simpa using member

theorem mem_addPath (q : Path) (member : p ∈ paths) : p ∈ addPath paths q := by
  unfold addPath
  split
  · exact member
  · exact List.mem_append_left _ member

theorem exists_same_addPath (paths : List Path) (p : Path) : ∃ q ∈ addPath paths p, Same q p := by
  unfold addPath
  split
  · next there => simpa using there
  · exact ⟨p, by simp, rfl⟩

theorem mem_of_mem_foldl_addPath (member : p ∈ ps.foldl addPath paths) : p ∈ paths ∨ p ∈ ps := by
  induction ps generalizing paths with
  | nil => exact Or.inl member
  | cons first ps ih =>
      rcases ih member with early | late
      · rcases mem_of_mem_addPath early with there | rfl
        · exact Or.inl there
        · exact Or.inr List.mem_cons_self
      · exact Or.inr (List.mem_cons_of_mem first late)

theorem mem_foldl_addPath (ps : List Path) (member : p ∈ paths) : p ∈ ps.foldl addPath paths := by
  induction ps generalizing paths with
  | nil => exact member
  | cons first ps ih => exact ih (mem_addPath first member)

/-- Some spelling of each path is added. -/
theorem exists_same_foldl_addPath (member : p ∈ ps) :
    ∃ q ∈ ps.foldl addPath paths, Same q p := by
  induction ps generalizing paths with
  | nil => cases member
  | cons first ps ih =>
      rcases List.mem_cons.mp member with rfl | later
      · obtain ⟨q, there, same⟩ := exists_same_addPath paths p
        exact ⟨q, mem_foldl_addPath ps there, same⟩
      · exact ih later

end Added

theorem eq_append_of_before? {ending text base : List Char}
    (cut : before? ending text = some base) : text = base ++ ending := by
  unfold before? at cut
  split at cut
  · next ends =>
      obtain ⟨front, rfl⟩ := List.isSuffixOf_iff_suffix.mp ends
      simpa using cut
  · cases cut

/-- Patterns that mean the root and the directories below it. -/
def IsRootPattern (pattern : Path) : Prop := pattern = ⟨"/**"⟩ ∨ pattern = ⟨"/*"⟩

instance (pattern : Path) : Decidable (IsRootPattern pattern) := inferInstanceAs (Decidable (_ ∨ _))

theorem expand_of_isRootPattern {pattern : Path} (root : IsRootPattern pattern) :
    expand disk pattern = [⟨[]⟩] := by
  rcases root with rfl | rfl
  · rw [expand, Path.text_mk]
    change ⟨[]⟩ :: disk.foldersBelow true ⟨[]⟩ = _
    rw [Disk.foldersBelow_empty]
  · rw [expand, Path.text_mk]
    change ⟨[]⟩ :: disk.foldersBelow false ⟨[]⟩ = _
    rw [Disk.foldersBelow_empty]

theorem isRooted_expand {disk : Disk} (wellNamed : disk.root.WellNamed) {pattern : Path}
    (rooted : pattern.IsRooted) (inside : ¬ IsRootPattern pattern) :
    ∀ p ∈ expand disk pattern, p.IsRooted := by
  unfold expand
  dsimp only
  split
  · next base ends =>
      have text : pattern.text.toList = base ++ '/' :: ['*', '*'] := eq_append_of_before? ends
      rcases rooted.cut_text (by decide) text with rfl | below
      · have all : pattern = ⟨"/**"⟩ :=
          Path.eq_of_text (Utf8.isAscii_of_all rfl) (String.toList_inj.mp text)
        exact absurd (Or.inl all) inside
      · exact List.forall_mem_cons.mpr ⟨below, Disk.isRooted_foldersBelow wellNamed true below⟩
  · split
    · next base ends =>
        have text : pattern.text.toList = base ++ '/' :: ['*'] := eq_append_of_before? ends
        rcases rooted.cut_text (by decide) text with rfl | below
        · have top : pattern = ⟨"/*"⟩ :=
            Path.eq_of_text (Utf8.isAscii_of_all rfl) (String.toList_inj.mp text)
          exact absurd (Or.inr top) inside
        · exact List.forall_mem_cons.mpr ⟨below, Disk.isRooted_foldersBelow wellNamed false below⟩
    · exact List.forall_mem_singleton.mpr rooted

variable {disk : Disk} {folders : List WorkspaceFolder}

/-- A directory comes from a pattern. -/
theorem exists_pattern {p : Path} (member : p ∈ (read disk folders).includePaths) :
    ∃ pattern ∈ patterns disk folders, p ∈ expand disk pattern := by
  rw [includePaths_read] at member
  rcases mem_of_mem_foldl_addPath member with none | expanded
  · cases none
  · exact List.mem_flatMap.mp expanded

/-- Each directory of a pattern is there in some spelling. -/
theorem exists_same_of_mem_expand {pattern p : Path} (given : pattern ∈ patterns disk folders)
    (member : p ∈ expand disk pattern) :
    ∃ q ∈ (read disk folders).includePaths, Same q p := by
  rw [includePaths_read]
  exact exists_same_foldl_addPath (List.mem_flatMap_of_mem given member)

theorem isRooted_or_empty (absolute : ∀ folder ∈ folders, folder.path.isAbsolute = true)
    (wellNamed : disk.root.WellNamed) {p : Path}
    (member : p ∈ (read disk folders).includePaths) : p.IsRooted ∨ p = ⟨[]⟩ := by
  obtain ⟨pattern, given, expanded⟩ := exists_pattern member
  by_cases root : IsRootPattern pattern
  · rw [expand_of_isRootPattern disk root] at expanded
    exact Or.inr (List.mem_singleton.mp expanded)
  · exact Or.inl
      (isRooted_expand wellNamed (isRooted_of_mem_patterns absolute given) root p expanded)

/-- The empty path is passed on just where a pattern means the root. -/
theorem empty_mem_includePaths_iff
    (absolute : ∀ folder ∈ folders, folder.path.isAbsolute = true)
    (wellNamed : disk.root.WellNamed) :
    (⟨[]⟩ : Path) ∈ (read disk folders).includePaths ↔
      ∃ pattern ∈ patterns disk folders, IsRootPattern pattern := by
  have relative : ¬ (⟨[]⟩ : Path).IsRooted := fun rooted => Bool.false_ne_true rooted.absolute
  constructor
  · intro member
    obtain ⟨pattern, given, expanded⟩ := exists_pattern member
    by_contra inside
    have root : ¬ IsRootPattern pattern := fun root => inside ⟨pattern, given, root⟩
    exact relative
      (isRooted_expand wellNamed (isRooted_of_mem_patterns absolute given) root _ expanded)
  · rintro ⟨pattern, given, root⟩
    have expanded : (⟨[]⟩ : Path) ∈ expand disk pattern := by
      rw [expand_of_isRootPattern disk root]
      exact List.mem_singleton_self _
    obtain ⟨q, there, same⟩ := exists_same_of_mem_expand given expanded
    rcases isRooted_or_empty absolute wellNamed there with rooted | rfl
    · have first := Path.isAbsolute_iff_head?_parts.mp rooted.absolute
      rw [same] at first
      cases first
    · exact there

end Companion

namespace Profile

/-- In folders with absolute paths, each directory of the configuration is absolute and in normal
form. So is each one of the settings files, but for the empty path, which is passed on in the place
of the root just where a pattern means the root. -/
theorem ofConfiguration_includes (disk : Disk) (c : Configuration)
    (folders : List WorkspaceFolder) (some : folders ≠ [])
    (absolute : ∀ folder ∈ folders, folder.path.isAbsolute = true)
    (wellNamed : disk.root.WellNamed) :
    let profile := ofConfiguration disk c folders
    (∀ p ∈ profile.systemIncludePaths, p.IsRooted) ∧
      (∀ p ∈ profile.companion.includePaths, p.IsRooted ∨ p = ⟨[]⟩) ∧
      (⟨[]⟩ ∈ profile.companion.includePaths ↔
        ∃ pattern ∈ Companion.patterns disk folders, Companion.IsRootPattern pattern) := by
  refine ⟨?_, fun p => Companion.isRooted_or_empty absolute wellNamed,
    Companion.empty_mem_includePaths_iff absolute wellNamed⟩
  intro p member
  obtain ⟨raw, _, rfl⟩ := List.mem_map.mp member
  obtain ⟨folder, others, rfl⟩ := List.exists_cons_of_ne_nil some
  exact Workspace.isRooted_resolve (absolute folder List.mem_cons_self) _ _ raw

theorem ofConfiguration_includes_below :
    let settings := "\x7b\"configurations\":" ++
      "[\x7b\"includePath\":[\"lib/**\",\"/w/./a/../lib\"]\x7d]\x7d"
    let file : Disk.Node := .file (Utf8.encode settings.toList) false
    let editor : Disk.Node := .directory [("c_cpp_properties.json", file)]
    let lib : Disk.Node :=
      .directory [("z", .directory []), ("b", .directory [("c", .file [] true)])]
    let disk : Disk := ⟨.directory [("w", .directory [(".vscode", editor), ("lib", lib)])], ⟨"/w"⟩⟩
    let folders := [WorkspaceFolder.ofPath ⟨"/w"⟩]
    let profile :=
      ofConfiguration disk { Configuration.default with systemIncludePath := ["../usr"] } folders
    folders ≠ [] ∧ (∀ folder ∈ folders, folder.path.isAbsolute = true) ∧ disk.root.WellNamed ∧
      profile.systemIncludePaths = [⟨"/usr"⟩] ∧ (⟨"/usr"⟩ : Path).IsRooted ∧
      Companion.patterns disk folders = [⟨"/w/lib/**"⟩, ⟨"/w/lib"⟩] ∧
      ⟨[]⟩ ∉ profile.companion.includePaths ∧
      ∀ p ∈ profile.companion.includePaths, p.IsRooted ∨ p = ⟨[]⟩ := by
  intro settings file editor lib disk folders profile
  have some : folders ≠ [] := List.cons_ne_nil _ _
  have absolute : ∀ folder ∈ folders, folder.path.isAbsolute = true := by decide +kernel
  have editorNamed : editor.WellNamed := Disk.Node.wellNamed_singleton (by decide) (.file _ _ _)
  have libNamed : lib.WellNamed := by
    have inner : (Disk.Node.directory [("c", .file [] true)]).WellNamed :=
      Disk.Node.wellNamed_singleton (by decide) (.file [] true true)
    refine .directory (by decide) ?_
    simpa [lib] using ⟨.directory (by decide) (by simp), inner⟩
  have wellNamed : disk.root.WellNamed := by
    refine Disk.Node.wellNamed_singleton (by decide) (.directory (by decide +kernel) ?_)
    simpa using ⟨editorNamed, libNamed⟩
  obtain ⟨system, companion, empty⟩ := ofConfiguration_includes disk
    { Configuration.default with systemIncludePath := ["../usr"] } folders some absolute wellNamed
  have usr : profile.systemIncludePaths = [⟨"/usr"⟩] := by decide +kernel
  have rooted := system ⟨"/usr"⟩ (usr ▸ List.mem_singleton_self _)
  have patterns : Companion.patterns disk folders = [⟨"/w/lib/**"⟩, ⟨"/w/lib"⟩] := by decide +kernel
  have inside : ⟨[]⟩ ∉ profile.companion.includePaths := by
    rw [empty, patterns]
    decide +kernel
  exact ⟨some, absolute, wellNamed, usr, rooted, patterns, inside, companion⟩

/-- A pattern over the root is passed on as the empty path. -/
theorem includePaths_root_pattern :
    let settings := "\x7b\"configurations\":[\x7b\"includePath\":[\"/*\"]\x7d]\x7d"
    let editor : Disk.Node :=
      .directory [("c_cpp_properties.json", .file (Utf8.encode settings.toList) false)]
    let disk : Disk := ⟨.directory [("w", .directory [(".vscode", editor)])], ⟨"/w"⟩⟩
    let folders := [WorkspaceFolder.ofPath ⟨"/w"⟩]
    let profile := ofConfiguration disk .default folders
    folders ≠ [] ∧ (∀ folder ∈ folders, folder.path.isAbsolute = true) ∧ disk.root.WellNamed ∧
      profile.companion.includePaths = [⟨[]⟩] ∧ "-extra-arg=-I" ∈ profile.baseArgs ∧
      ¬ ∀ p ∈ profile.companion.includePaths, p.isAbsolute = true := by
  intro settings editor disk folders profile
  have editorNamed : editor.WellNamed := Disk.Node.wellNamed_singleton (by decide) (.file _ _ _)
  have wellNamed : disk.root.WellNamed :=
    Disk.Node.wellNamed_singleton (by decide)
      (Disk.Node.wellNamed_singleton (by decide) editorNamed)
  have paths : profile.companion.includePaths = [⟨[]⟩] := by decide +kernel
  have passed : "-extra-arg=-I" ∈ profile.baseArgs := by
    simp [baseArgs, paths, Path.text, Utf8.lossy, Utf8.decodeLossy]
  refine ⟨List.cons_ne_nil _ _, by decide +kernel, wellNamed, paths, passed, fun all => ?_⟩
  have absolute := all ⟨[]⟩ (paths ▸ List.mem_singleton_self _)
  exact Bool.false_ne_true absolute

end Profile

end LintReport
