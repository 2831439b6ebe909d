import LintReport.Invocation
import LintReport.Proofs.Companion.Expanded
import LintReport.Proofs.Workspace.Meant

set_option autoImplicit false

/- All arguments of a call, in groups: what each group comes from, how each argument in it is
spelled, and where the group stands. This is said of the configuration and the folders, without
the profile that is made of them on the way. -/
namespace LintReport

open LintReport.Companion (entriesOf expand patterns)
open LintReport.Path (Same)
open LintReport.Profile (defaultFolderOf ofConfiguration)
open LintReport.Workspace (Filled Means)

namespace Companion

variable (disk : Disk) (folders : List WorkspaceFolder)

/-- The entries in the settings files of all folders. -/
def entries : List CompanionEntry := folders.flatMap fun folder => entriesOf disk folder.path

/-- The directories that the patterns of all folders stand for, each where it stands first. -/
def directories : List Path :=
  ((patterns disk folders).flatMap (expand disk)).eraseDupsBy fun p q => decide (Same p q)

theorem includePaths_eq_directories :
    (read disk folders).includePaths = directories disk folders := by
  rw [includePaths_read, directories, List.eraseDupsBy]
  exact foldl_addPath [] _

/-- The standard of the last entry that sets one. -/
theorem standard_read {standard : CompanionEntry → Option String}
    {kept : Companion → Option String} (fresh : kept empty = none)
    (takes : ∀ folder c entry,
      kept (absorb disk folders folder c entry) = (standard entry).or (kept c)) :
    kept (read disk folders) = ((entries disk folders).filterMap standard).getLast? := by
  rw [read, kept_foldl standard kept takes, fresh, Option.or_none, entries]

end Companion

namespace Profile

theorem nonempty_eq_some_iff {s : Option String} {standard : String} :
    nonempty s = some standard ↔ s = some standard ∧ standard ≠ "" := by
  rw [nonempty, Option.filter_eq_some_iff, Bool.not_eq_true', ← Bool.not_eq_true,
    String.isEmpty_iff]

/-- Relative paths have a folder to start from, when there are no folders too. -/
theorem defaultFolderOf_filled (given : List (String × Path)) :
    (defaultFolderOf (given.map fun f => WorkspaceFolder.named f.1 f.2)).bytes ≠ [] := by
  cases given with
  | nil => decide +kernel
  | cons f given => exact Path.normalize_filled f.2

end Profile

namespace Invocation

/-- How the compiler is told a language: its name there, and its standard, which is the last one
in the settings. A standard that is empty counts as none. -/
inductive Speaks (settings : List CompanionEntry) : (language name standard : String) → Prop
  | c {standard : String} (last : (settings.filterMap (·.cStandard)).getLast? = some standard)
      (filled : standard ≠ "") : Speaks settings "c" "c" standard
  | cpp {standard : String} (last : (settings.filterMap (·.cppStandard)).getLast? = some standard)
      (filled : standard ≠ "") : Speaks settings "cpp" "c++" standard

section Argument

variable (disk : Disk) (folders : List WorkspaceFolder) (raw arg : String)

/-- The argument for a directory with headers of the system. -/
def SystemArg : Prop :=
  ∃ p, Means disk.workingFolder (defaultFolderOf folders) folders raw p ∧
    "-extra-arg=-isystem" ++ p.text = arg

/-- The argument that hands one on to the compiler. -/
def CompilerArg : Prop :=
  ∃ text, Filled (defaultFolderOf folders) folders raw text ∧ "-extra-arg-before=" ++ text = arg

variable {folders} in
theorem systemArg_iff (filled : (defaultFolderOf folders).bytes ≠ []) :
    SystemArg disk folders raw arg ↔ "-extra-arg=-isystem" ++
      (Workspace.resolve disk.workingFolder (defaultFolderOf folders) folders raw).text = arg := by
  simp only [SystemArg, Workspace.means_iff _ _ _ filled, exists_eq_left']

theorem compilerArg_iff : CompilerArg folders raw arg ↔
    "-extra-arg-before=" ++ Workspace.substitute (defaultFolderOf folders) folders raw = arg := by
  simp only [CompilerArg, Workspace.filled_iff, exists_eq_left']

end Argument

/-- The arguments of a call behind the first two, by what they come from. -/
@[ext]
structure Groups where
  filter : List String
  system : List String
  compiler : List String
  raw : List String
  includes : List String
  dialect : List String

namespace Groups

def arguments (g : Groups) : List String :=
  g.filter ++ g.system ++ g.compiler ++ g.raw ++ g.includes ++ g.dialect

/-- What the groups of a call are. A group that comes from a list has one argument for each member,
in the order of the list. -/
structure Follow (disk : Disk) (c : Configuration) (folders : List WorkspaceFolder)
    (language : String) (g : Groups) : Prop where
  filter : g.filter = if c.headerFilter = "" then [] else ["-header-filter=" ++ c.headerFilter]
  system : List.Forall₂ (SystemArg disk folders) c.systemIncludePath g.system
  compiler : List.Forall₂ (CompilerArg folders) c.extraCompilerArgs g.compiler
  raw : List.Forall₂ (Filled (defaultFolderOf folders) folders) c.args g.raw
  includes : g.includes =
    (Companion.directories disk folders).map fun p => "-extra-arg=-I" ++ p.text
  flagged : ∀ name standard, Speaks (Companion.entries disk folders) language name standard →
    g.dialect = ["-extra-arg-before=-x" ++ name, "-extra-arg-before=-std=" ++ standard]
  unflagged : (∀ name standard,
    ¬ Speaks (Companion.entries disk folders) language name standard) → g.dialect = []

/-- The groups that a profile has, each made of what it comes from. -/
def of (disk : Disk) (c : Configuration) (folders : List WorkspaceFolder) (language : String) :
    Groups where
  filter := if c.headerFilter = "" then [] else ["-header-filter=" ++ c.headerFilter]
  system := c.systemIncludePath.map fun raw => "-extra-arg=-isystem" ++
    (Workspace.resolve disk.workingFolder (defaultFolderOf folders) folders raw).text
  compiler := c.extraCompilerArgs.map fun raw =>
    "-extra-arg-before=" ++ Workspace.substitute (defaultFolderOf folders) folders raw
  raw := c.args.map (Workspace.substitute (defaultFolderOf folders) folders)
  includes := (Companion.directories disk folders).map fun p => "-extra-arg=-I" ++ p.text
  dialect := dialectArgs (ofConfiguration disk c folders) language

end Groups

/-- Lists related by what a function gives are the lists that it maps to each other. -/
theorem forall₂_iff_map_eq {α β : Type} {R : α → β → Prop} {f : α → β}
    (graph : ∀ x y, R x y ↔ f x = y) (xs : List α) (ys : List β) :
    List.Forall₂ R xs ys ↔ xs.map f = ys := by
  have same : R = fun x y => f x = y := by
    funext x y
    exact propext (graph x y)
  rw [same, ← List.forall₂_map_left_iff (R := fun x y => x = y), List.forall₂_eq_eq_eq]

section Profile

variable (disk : Disk) (c : Configuration) (folders : List WorkspaceFolder)

theorem args_build (path : Path) (language : String) :
    (build (ofConfiguration disk c folders) path language).args =
      path.text :: "--export-fixes=-" :: (Groups.of disk c folders language).arguments := by
  have includes := Companion.includePaths_eq_directories disk folders
  simp only [build, Profile.baseArgs, Profile.headerFilterArgs, ofConfiguration, Groups.of,
    Groups.arguments, includes, String.isEmpty_iff, List.map_map, Function.comp_def,
    List.cons_append, List.append_assoc]

theorem dialect?_eq_some_iff (language name standard : String) :
    dialect? (ofConfiguration disk c folders) language = some (name, standard) ↔
      Speaks (Companion.entries disk folders) language name standard := by
  have cStandard : (Companion.read disk folders).cStandard =
      ((Companion.entries disk folders).filterMap (·.cStandard)).getLast? :=
    Companion.standard_read disk folders rfl fun _ _ _ => rfl
  have cppStandard : (Companion.read disk folders).cppStandard =
      ((Companion.entries disk folders).filterMap (·.cppStandard)).getLast? :=
    Companion.standard_read disk folders rfl fun _ _ _ => rfl
  constructor
  · intro told
    unfold dialect? at told
    split at told
    · next isC =>
        obtain ⟨_, known, same⟩ := Option.map_eq_some_iff.mp told
        obtain ⟨rfl, rfl⟩ := Prod.mk.inj same
        obtain ⟨last, filled⟩ := Profile.nonempty_eq_some_iff.mp known
        rw [isC]
        exact .c (cStandard.symm.trans last) filled
    · split at told
      · next isCpp =>
          obtain ⟨_, known, same⟩ := Option.map_eq_some_iff.mp told
          obtain ⟨rfl, rfl⟩ := Prod.mk.inj same
          obtain ⟨last, filled⟩ := Profile.nonempty_eq_some_iff.mp known
          rw [isCpp]
          exact .cpp (cppStandard.symm.trans last) filled
      · cases told
  · intro speaks
    cases speaks with
    | c last filled =>
        have known := Profile.nonempty_eq_some_iff.mpr ⟨cStandard.trans last, filled⟩
        rw [dialect?, if_pos rfl]
        exact congrArg (Option.map fun s => ("c", s)) known
    | cpp last filled =>
        have known := Profile.nonempty_eq_some_iff.mpr ⟨cppStandard.trans last, filled⟩
        rw [dialect?, if_neg (by decide), if_pos rfl]
        exact congrArg (Option.map fun s => ("c++", s)) known

theorem dialectArgs_eq_iff (language : String) (flags : List String) :
    dialectArgs (ofConfiguration disk c folders) language = flags ↔
      (∀ name standard, Speaks (Companion.entries disk folders) language name standard →
        flags = ["-extra-arg-before=-x" ++ name, "-extra-arg-before=-std=" ++ standard]) ∧
      ((∀ name standard, ¬ Speaks (Companion.entries disk folders) language name standard) →
        flags = []) := by
  simp only [← dialect?_eq_some_iff disk c folders]
  unfold dialectArgs
  cases dialect? (ofConfiguration disk c folders) language with
  | none => simp [eq_comm]
  | some told =>
      obtain ⟨name, standard⟩ := told
      constructor
      · rintro rfl
        refine ⟨?_, fun silent => absurd rfl (silent name standard)⟩
        rintro _ _ ⟨⟩
        rfl
      · rintro ⟨flagged, _⟩
        exact (flagged name standard rfl).symm

end Profile

/-- What the groups have to be leaves one choice for each of them. -/
theorem Groups.follow_iff (disk : Disk) (c : Configuration) {folders : List WorkspaceFolder}
    (filled : (defaultFolderOf folders).bytes ≠ []) (language : String) (g : Groups) :
    g.Follow disk c folders language ↔ of disk c folders language = g := by
  have system := forall₂_iff_map_eq (fun raw arg => systemArg_iff disk raw arg filled)
    c.systemIncludePath g.system
  have compiler := forall₂_iff_map_eq (compilerArg_iff folders) c.extraCompilerArgs g.compiler
  have raw := forall₂_iff_map_eq (Workspace.filled_iff (defaultFolderOf folders) folders)
    c.args g.raw
  have dialect := dialectArgs_eq_iff disk c folders language g.dialect
  rw [Groups.ext_iff, of]
  dsimp only
  rw [← system, ← compiler, ← raw, dialect]
  constructor
  · intro follow
    exact ⟨follow.filter.symm, follow.system, follow.compiler, follow.raw, follow.includes.symm,
      follow.flagged, follow.unflagged⟩
  · rintro ⟨filter, system, compiler, raw, includes, flagged, unflagged⟩
    exact ⟨filter.symm, system, compiler, raw, includes.symm, flagged, unflagged⟩

/-- The arguments of a call are those of its groups, in this order, behind the path of the document
and the export. -/
theorem args_build_groups (disk : Disk) (c : Configuration) (given : List (String × Path))
    (path : Path) (language : String) (args : List String) :
    let folders := given.map fun f => WorkspaceFolder.named f.1 f.2
    (build (ofConfiguration disk c folders) path language).args = args ↔
      ∃ groups : Groups, groups.Follow disk c folders language ∧
        args = path.text :: "--export-fixes=-" :: groups.arguments := by
  intro folders
  have filled := Profile.defaultFolderOf_filled given
  have follow := fun g => Groups.follow_iff disk c filled language g
  rw [args_build, eq_comm]
  constructor
  · intro made
    exact ⟨_, (follow _).mpr rfl, made⟩
  · rintro ⟨g, follows, made⟩
    rw [(follow g).mp follows]
    exact made

/-- A path that is not UTF-8 does not stand among the arguments; its text does. -/
theorem args_build_not_text :
    let path : Path := ⟨[0x2F, 0x78, 0xFF, 0x2E, 0x63]⟩
    let folder : Path := ⟨[0x2F, 0x77, 0xFF]⟩
    let disk : Disk := ⟨.directory [], ⟨"/"⟩⟩
    let c : Configuration := { Configuration.default with systemIncludePath := ["inc"] }
    let args := (build (ofConfiguration disk c [WorkspaceFolder.named "w" folder]) path "c").args
    args = ["/x\uFFFD.c", "--export-fixes=-", "-header-filter=.*",
        "-extra-arg=-isystem/w\uFFFD/inc", "-extra-arg-before=-Weverything"] ∧
      (∀ arg ∈ args, (arg : List UInt8) ≠ path.bytes) ∧
      ∀ arg ∈ args, (arg : List UInt8) ≠
        ("-extra-arg=-isystem" : List UInt8) ++ folder.bytes ++ ("/inc" : List UInt8) := by
  intro path folder disk c args
  have given : args = ["/x\uFFFD.c", "--export-fixes=-", "-header-filter=.*",
      "-extra-arg=-isystem/w\uFFFD/inc", "-extra-arg-before=-Weverything"] := by decide +kernel
  refine ⟨given, ?_, ?_⟩
  · rw [given]
    decide +kernel
  · rw [given]
    decide +kernel

example :
    let settings := "\x7b\"configurations\":[\x7b\"includePath\":[\"inc\",\"./inc/\"]," ++
      "\"cStandard\":\"c11\"\x7d]\x7d"
    let editor : Disk.Node :=
      .directory [("c_cpp_properties.json", .file (Utf8.encode settings.toList) false)]
    let disk : Disk := ⟨.directory [("w", .directory [(".vscode", editor)])], ⟨"/"⟩⟩
    let c : Configuration :=
      { Configuration.default with
        systemIncludePath := ["sys/../sys"], args := ["-p=$\x7bworkspaceFolder\x7d/build"] }
    let folders := [WorkspaceFolder.named "w" ⟨"/w/"⟩]
    (build (ofConfiguration disk c folders) ⟨"/w/a.c"⟩ "c").args =
      ["/w/a.c", "--export-fixes=-", "-header-filter=.*", "-extra-arg=-isystem/w/sys",
        "-extra-arg-before=-Weverything", "-p=/w/build", "-extra-arg=-I/w/inc",
        "-extra-arg-before=-xc", "-extra-arg-before=-std=c11"] := by
  decide +kernel

end Invocation

end LintReport
