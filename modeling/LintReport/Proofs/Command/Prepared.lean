import LintReport.Command
import LintReport.Proofs.Document.Cache
import LintReport.Proofs.MapM

set_option autoImplicit false

/- What happens before anything is analyzed. The configuration must load and each file with a
language must be read, or the command goes no further; the files without one do not count. -/
namespace LintReport.Command

/-- A file with the language that it is read in. -/
structure Source where
  file : Path
  language : String
  deriving DecidableEq, Repr

namespace Source

def read (disk : Disk) (s : Source) : Except DiskError Document :=
  Document.read disk (absolute disk.workingFolder s.file) s.language

/-- The path that the document of the file goes by. -/
def path (workingFolder : Path) (s : Source) : Path := (absolute workingFolder s.file).normalize

theorem document_of_read {disk : Disk} {s : Source} {d : Document} (read : s.read disk = .ok d) :
    d.path = s.path disk.workingFolder ∧ d.language = s.language ∧ d.path.IsNormal := by
  obtain ⟨content, _, rfl⟩ := Document.exists_of_read read
  exact ⟨rfl, rfl, Document.isNormal_ofContent _ _ _ _⟩

end Source

/-- The files whose language is given or known, in their order. -/
def sourcesOf (language : Option String) (files : List Path) : List Source :=
  files.filterMap fun file => (language.or (languageOf? file)).map fun name => ⟨file, name⟩

theorem sourcesOf_cons_of_none {language : Option String} {file : Path} (files : List Path)
    (unknown : language.or (languageOf? file) = none) :
    sourcesOf language (file :: files) = sourcesOf language files := by
  rw [sourcesOf, List.filterMap_cons_none (by rw [unknown, Option.map_none])]
  rfl

theorem sourcesOf_cons_of_some {language : Option String} {file : Path} (files : List Path)
    {name : String} (known : language.or (languageOf? file) = some name) :
    sourcesOf language (file :: files) = ⟨file, name⟩ :: sourcesOf language files := by
  rw [sourcesOf, List.filterMap_cons_some (by rw [known, Option.map_some])]
  rfl

variable (disk : Disk) (language : Option String)

theorem readDocuments_cons_of_some {file : Path} (files : List Path) {name : String}
    (known : language.or (languageOf? file) = some name) :
    readDocuments disk language (file :: files) =
      match Source.read disk ⟨file, name⟩ with
      | .error reason => .error (.document (absolute disk.workingFolder file) reason)
      | .ok d => (readDocuments disk language files).map (d :: ·) := by
  rw [readDocuments, known]
  rfl

/-- Either each file with a language is read, or one that cannot be read is reported. -/
theorem readDocuments_cases (files : List Path) :
    (∃ documents, readDocuments disk language files = .ok documents ∧
      List.Forall₂ (fun s d => s.read disk = .ok d) (sourcesOf language files) documents) ∨
    ∃ s ∈ sourcesOf language files, ∃ reason, s.read disk = .error reason ∧
      readDocuments disk language files =
        .error (.document (absolute disk.workingFolder s.file) reason) := by
  induction files with
  | nil => exact Or.inl ⟨[], rfl, .nil⟩
  | cons file files ih =>
      cases known : language.or (languageOf? file) with
      | none =>
          rw [sourcesOf_cons_of_none files known, readDocuments, known]
          exact ih
      | some name =>
          rw [sourcesOf_cons_of_some files known,
            readDocuments_cons_of_some disk language files known]
          cases read : Source.read disk ⟨file, name⟩ with
          | error reason => exact Or.inr ⟨⟨file, name⟩, List.mem_cons_self, reason, read, rfl⟩
          | ok d =>
              rcases ih with ⟨documents, equal, all⟩ | ⟨s, member, reason, failed, equal⟩
              · rw [equal]
                exact Or.inl ⟨d :: documents, rfl, .cons read all⟩
              · rw [equal]
                exact Or.inr ⟨s, List.mem_cons_of_mem _ member, reason, failed, rfl⟩

variable {disk}

/-- Why a command goes no further: the configuration cannot be loaded, or some file with a language
cannot be read. -/
inductive Broken (disk : Disk) (home : Path) (a : Arguments) : Prop
  | configuration {e : ConfigurationError}
      (failed : Configuration.load disk home
        ((foldersOf disk.workingFolder a).head?.map WorkspaceFolder.path) a.config = .error e)
  | file {s : Source} {reason : DiskError} (given : s ∈ sourcesOf a.language a.files)
      (failed : s.read disk = .error reason)

variable {host : Host} {home : Path} {a : Arguments}

theorem forall₂_of_prepare {analyzer : Analyzer} {documents : List Document}
    (prepared : prepare host home a disk = .ok (analyzer, documents)) :
    List.Forall₂ (fun s d => s.read disk = .ok d) (sourcesOf a.language a.files) documents := by
  unfold prepare at prepared
  split at prepared
  · cases prepared
  · rcases readDocuments_cases disk a.language a.files with
      ⟨documents', read, all⟩ | ⟨s, _, reason, _, read⟩
    · rw [read] at prepared
      cases prepared
      exact all
    · rw [read] at prepared
      cases prepared

theorem prepare_eq_error_iff :
    (∃ e, prepare host home a disk = .error e) ↔ Broken disk home a := by
  cases loaded : Configuration.load disk home
      ((foldersOf disk.workingFolder a).head?.map WorkspaceFolder.path) a.config with
  | error e =>
      apply iff_of_true
      · refine ⟨.configuration e, ?_⟩
        simp only [prepare, loadConfiguration, loaded]
      · exact .configuration loaded
  | ok c =>
      simp only [prepare, loadConfiguration, loaded]
      rcases readDocuments_cases disk a.language a.files with
        ⟨documents, read, all⟩ | ⟨s, given, reason, failed, read⟩
      · apply iff_of_false
        · rintro ⟨e, refused⟩
          rw [read] at refused
          cases refused
        · rintro (⟨failed⟩ | ⟨given, failed⟩)
          · rw [loaded] at failed
            cases failed
          · obtain ⟨d, _, read'⟩ := exists_of_mem_forall₂ all given
            rw [read'] at failed
            cases failed
      · rw [read]
        exact iff_of_true ⟨_, rfl⟩ (.file given failed)

theorem not_broken_of_prepare (ready : (prepare host home a disk).toBool = true) :
    ¬ Broken disk home a := by
  intro broken
  obtain ⟨e, failed⟩ := prepare_eq_error_iff.mpr broken
  rw [failed] at ready
  cases ready

end LintReport.Command
