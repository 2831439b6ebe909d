import LintReport.Document.Cache
import LintReport.Proofs.Path.Normal

set_option autoImplicit false

/- A cache answers as reading would that starts anew for each question, as long as the
files stay as they are. -/
namespace LintReport

open LintReport.Path (IsNormal isNormal_normalize)

namespace Document

variable (primary : Document) (disk : Disk) (p : Path)

/-- The document at a path in normal form. That of the run is at hand. -/
def fetch? : Option Document :=
  if p = primary.path then some primary else (read disk p primary.language).toOption

/-- The bytes at a path in normal form. Those of the document of the run are at hand. -/
def contentAt? : Option (List UInt8) :=
  if p = primary.path then some primary.content else (disk.read p).toOption

theorem map_content_fetch? : (primary.fetch? disk p).map content = primary.contentAt? disk p := by
  unfold fetch? contentAt?
  split
  · rfl
  · unfold read
    cases disk.read p <;> rfl

theorem positionAt_getD_fetch? (offset : Nat) :
    ((primary.fetch? disk p).getD primary).positionAt offset =
      (LineIndex.ofContent ((primary.contentAt? disk p).getD primary.content)).positionAt offset := by
  rw [← map_content_fetch?]
  cases primary.fetch? disk p <;> rfl

theorem isNormal_ofContent (path : Path) (language : String) (version : Int)
    (content : List UInt8) : (ofContent path language version content).path.IsNormal :=
  isNormal_normalize path

/-- A document that was read is named as its path is spelled, and holds what lies there. -/
theorem exists_of_read {disk : Disk} {path : Path} {language : String} {d : Document}
    (read : Document.read disk path language = .ok d) :
    ∃ content, disk.read path = .ok content ∧ d = ofContent path language 0 content := by
  unfold Document.read at read
  cases found : disk.read path with
  | error e =>
      rw [found] at read
      cases read
  | ok content =>
      rw [found] at read
      exact ⟨content, rfl, (Except.ok.inj read).symm⟩

end Document

namespace DocumentCache

/-- All that a cache knows is what fetching finds, and it knows the document of the run. -/
structure Faithful (primary : Document) (disk : Disk) (c : DocumentCache) : Prop where
  same : c.primary = primary
  atHand : c.known? primary.path = some (some primary)
  fetched : ∀ key found, c.known? key = some found → found = primary.fetch? disk key

theorem known?_ofPrimary (d : Document) (key : Path) :
    (ofPrimary d).known? key = if key = d.path then some (some d) else none := by
  by_cases equal : key = d.path
  · simp [known?, ofPrimary, equal]
  · simp [known?, ofPrimary, equal, Ne.symm equal]

theorem known?_remembered (c : DocumentCache) (key key' : Path) (found : Option Document) :
    known? { c with entries := (key, found) :: c.entries } key' =
      if key' = key then some found else c.known? key' := by
  by_cases equal : key' = key
  · simp [known?, equal]
  · simp [known?, equal, Ne.symm equal]

theorem faithful_ofPrimary (d : Document) (disk : Disk) : Faithful d disk (ofPrimary d) := by
  refine ⟨rfl, ?_, ?_⟩
  · rw [known?_ofPrimary, if_pos rfl]
  · intro key found known
    rw [known?_ofPrimary] at known
    split at known
    · next equal =>
        rw [Document.fetch?, if_pos equal]
        exact (Option.some.inj known).symm
    · simp at known

variable {primary : Document} {disk : Disk} {c : DocumentCache}

/-- What is not yet known is not the document of the run, so it is read. -/
theorem Faithful.fetch?_of_unknown (faithful : Faithful primary disk c) {key : Path}
    (unknown : c.known? key = none) :
    primary.fetch? disk key = (Document.read disk key c.primary.language).toOption := by
  have other : key ≠ primary.path := by
    intro equal
    rw [equal, faithful.atHand] at unknown
    simp at unknown
  rw [Document.fetch?, if_neg other, faithful.same]

/-- Looking a path up finds what fetching finds, and leaves a cache that does so too. -/
theorem Faithful.load (faithful : Faithful primary disk c) (path : Path) :
    (c.load disk path).1 = primary.fetch? disk path.normalize ∧
      Faithful primary disk (c.load disk path).2 := by
  cases known : c.known? path.normalize with
  | some found =>
      rw [load_of_known disk known]
      exact ⟨faithful.fetched _ _ known, faithful⟩
  | none =>
      have fresh := faithful.fetch?_of_unknown known
      simp only [DocumentCache.load, known, ← fresh]
      refine ⟨trivial, faithful.same, ?_, ?_⟩
      · rw [known?_remembered]
        split
        · next equal => rw [← equal, Document.fetch?, if_pos rfl]
        · exact faithful.atHand
      · intro key found
        rw [known?_remembered]
        split
        · next equal =>
            intro known
            rw [← Option.some.inj known, equal]
        · exact faithful.fetched key found

theorem Faithful.load_of_isNormal (faithful : Faithful primary disk c) {path : Path}
    (normal : path.IsNormal) : (c.load disk path).1 = primary.fetch? disk path := by
  rw [(faithful.load path).1, normal]

end DocumentCache

end LintReport
