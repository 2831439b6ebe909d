import LintReport.Path

set_option autoImplicit false

/- Maps with paths for keys, in path order. Spellings of one path are one key,
and the key keeps the spelling it came with first. -/
namespace LintReport

structure PathMap (α : Type) where
  entries : List (Path × α)
  deriving DecidableEq, Repr

namespace PathMap

variable {α : Type}

def empty : PathMap α := ⟨[]⟩

def upsertEntries (p : Path) (f : Option α → α) : List (Path × α) → List (Path × α)
  | [] => [(p, f none)]
  | (q, a) :: rest =>
      match p.compare q with
      | .lt => (p, f none) :: (q, a) :: rest
      | .eq => (q, f (some a)) :: rest
      | .gt => (q, a) :: upsertEntries p f rest

def upsert (m : PathMap α) (p : Path) (f : Option α → α) : PathMap α :=
  ⟨upsertEntries p f m.entries⟩

def insert (m : PathMap α) (p : Path) (a : α) : PathMap α := m.upsert p fun _ => a

def find? (m : PathMap α) (p : Path) : Option α :=
  (m.entries.find? fun e => decide (Path.Same e.1 p)).map Prod.snd

def keys (m : PathMap α) : List Path := m.entries.map Prod.fst

def values (m : PathMap α) : List α := m.entries.map Prod.snd

@[simp] theorem find?_empty (p : Path) : (empty : PathMap α).find? p = none := rfl

theorem find?_eq_of_same (m : PathMap α) {p q : Path} (h : Path.Same p q) :
    m.find? p = m.find? q := by
  simp only [find?, Path.Same, h]

end PathMap

end LintReport
