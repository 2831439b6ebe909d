import LintReport.Diagnostic

set_option autoImplicit false

/- Diagnostics grouped by file, in path order, with their number kept beside. -/
namespace LintReport

structure DiagnosticMap where
  files : PathMap (List Diagnostic)
  total : Nat
  deriving DecidableEq, Repr

namespace DiagnosticMap

def empty : DiagnosticMap := ⟨PathMap.empty, 0⟩

def ensureEntry (m : DiagnosticMap) (path : Path) : DiagnosticMap :=
  { m with files := m.files.upsert path fun old => old.getD [] }

def push (m : DiagnosticMap) (path : Path) (d : Diagnostic) : DiagnosticMap :=
  ⟨m.files.upsert path fun old => old.getD [] ++ [d], m.total + 1⟩

/-- The map of a run that has reported nothing on `primary` so far. -/
def ofPrimary (primary : Path) : DiagnosticMap := empty.ensureEntry primary

def get? (m : DiagnosticMap) (path : Path) : Option (List Diagnostic) := m.files.find? path

def paths (m : DiagnosticMap) : List Path := m.files.keys

def diagnostics (m : DiagnosticMap) : List Diagnostic := m.files.values.flatten

def count (m : DiagnosticMap) (severity : Severity) : Nat :=
  (m.diagnostics.filter fun d => d.severity = severity).length

def errorCount (m : DiagnosticMap) : Nat := m.count .error

def warningCount (m : DiagnosticMap) : Nat := m.count .warning

/-- The numbers of errors and warnings in short; nothing for an empty map. -/
def status (m : DiagnosticMap) : String :=
  if m.total = 0 then ""
  else String.ofList ('E' :: ':' :: Text.decimal m.errorCount ++
    ' ' :: 'W' :: ':' :: Text.decimal m.warningCount)

/-- A map as a record; `none` when one of its paths is not UTF-8. -/
def toJson? (m : DiagnosticMap) : Option Json := do
  let files ← m.files.entries.mapM fun e =>
    e.1.text?.map fun path => (path, Json.array (e.2.map Diagnostic.toJson))
  some (.record [("files", .record files), ("total", .natural m.total)])

@[simp] theorem total_ensureEntry (m : DiagnosticMap) (path : Path) :
    (m.ensureEntry path).total = m.total := rfl

@[simp] theorem total_push (m : DiagnosticMap) (path : Path) (d : Diagnostic) :
    (m.push path d).total = m.total + 1 := rfl

theorem errorCount_add_warningCount (m : DiagnosticMap) :
    m.errorCount + m.warningCount = m.diagnostics.length := by
  unfold errorCount warningCount count
  induction m.diagnostics with
  | nil => rfl
  | cons d rest ih => cases h : d.severity <;> simp [h] at ih ⊢ <;> omega

end DiagnosticMap

end LintReport
