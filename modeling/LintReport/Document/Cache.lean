import LintReport.Document

set_option autoImplicit false

/- The documents that one run has looked at. Each path is read once, and a file that
could not be read then stays missing; the document of the run itself is never read. -/
namespace LintReport

structure DocumentCache where
  primary : Document
  /-- What is known under each path in normal form. -/
  entries : List (Path × Option Document)
  deriving DecidableEq, Repr

namespace DocumentCache

def ofPrimary (d : Document) : DocumentCache := ⟨d, [(d.path, some d)]⟩

def known? (c : DocumentCache) (key : Path) : Option (Option Document) :=
  (c.entries.find? fun e => e.1 = key).map Prod.snd

/-- The document at a path, and the cache that remembers it. -/
def load (c : DocumentCache) (disk : Disk) (path : Path) : Option Document × DocumentCache :=
  let key := path.normalize
  match c.known? key with
  | some found => (found, c)
  | none =>
      let found := (Document.read disk key c.primary.language).toOption
      (found, { c with entries := (key, found) :: c.entries })

theorem load_of_known {c : DocumentCache} {path : Path} {found : Option Document}
    (disk : Disk) (h : c.known? path.normalize = some found) :
    c.load disk path = (found, c) := by
  simp [load, h]

end DocumentCache

end LintReport
