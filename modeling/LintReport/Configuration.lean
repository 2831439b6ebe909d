import LintReport.Text.Utf8
import LintReport.Toml.Document

set_option autoImplicit false

/- How to start the analyzer and which of its diagnostics to keep. A configuration
is read from a TOML table, in which some settings have two spellings. -/
namespace LintReport

structure Configuration where
  /-- The name or the path of the analyzer. -/
  executable : String
  /-- Directories whose headers count as the system's. -/
  systemIncludePath : List String
  /-- The languages that are analyzed. -/
  lintLanguages : List String
  /-- Arguments for the compiler. -/
  extraCompilerArgs : List String
  /-- A pattern for the headers to report on. -/
  headerFilter : String
  /-- Arguments for the analyzer. -/
  args : List String
  /-- Diagnostics of files whose path holds one of these texts are dropped. -/
  excludes : List String
  /-- Whether diagnostics outside the workspace folders are dropped. -/
  workspaceOnly : Bool
  /-- Whether the analyzer's error stream is read as well. -/
  mergeStderr : Bool
  /-- How many seconds a run may last. -/
  timeoutSecs : Option UInt64
  deriving DecidableEq, Repr

/-- One setting of a table: its spellings, how its value is read, and the value it has
when it is not there. -/
structure Setting (α : Type) where
  spellings : List String
  read : Toml.Value → Option α
  default : α

namespace Setting

variable {α : Type}

def entriesIn (s : Setting α) (t : Toml.Table) : Toml.Table :=
  t.filter fun e => s.spellings.contains e.1

/-- The setting as a table has it; refused when it is there twice or has the wrong
type. -/
def get? (s : Setting α) (t : Toml.Table) : Option α :=
  match s.entriesIn t with
  | [] => some s.default
  | [e] => s.read e.2
  | _ => none

def text? : Toml.Value → Option String
  | .text s => some s
  | _ => none

def texts? : Toml.Value → Option (List String)
  | .array items => items.mapM text?
  | _ => none

def flag? : Toml.Value → Option Bool
  | .bool b => some b
  | _ => none

def seconds? : Toml.Value → Option (Option UInt64)
  | .integer n => if 0 ≤ n ∧ n < UInt64.size then some (some n.toNat.toUInt64) else none
  | _ => none

end Setting

namespace Configuration

def executableSetting : Setting String := ⟨["executable"], Setting.text?, "clang-tidy"⟩

def systemIncludePathSetting : Setting (List String) :=
  ⟨["system_include_path", "systemIncludePath"], Setting.texts?, []⟩

def lintLanguagesSetting : Setting (List String) :=
  ⟨["lint_languages", "lintLanguages"], Setting.texts?, ["c", "cpp"]⟩

def extraCompilerArgsSetting : Setting (List String) :=
  ⟨["extra_compiler_args", "extraCompilerArgs"], Setting.texts?, ["-Weverything"]⟩

def headerFilterSetting : Setting String :=
  ⟨["header_filter", "headerFilter"], Setting.text?, ".*"⟩

def argsSetting : Setting (List String) := ⟨["args"], Setting.texts?, []⟩

def excludesSetting : Setting (List String) := ⟨["excludes"], Setting.texts?, []⟩

def workspaceOnlySetting : Setting Bool :=
  ⟨["workspace_only", "workspaceOnly"], Setting.flag?, false⟩

def mergeStderrSetting : Setting Bool := ⟨["merge_stderr", "mergeStderr"], Setting.flag?, false⟩

def timeoutSecsSetting : Setting (Option UInt64) :=
  ⟨["timeout_secs", "timeoutSecs"], Setting.seconds?, none⟩

/-- The configuration that a table describes. Keys that are no setting do not count. -/
def ofTable? (t : Toml.Table) : Option Configuration := do
  let executable ← executableSetting.get? t
  let systemIncludePath ← systemIncludePathSetting.get? t
  let lintLanguages ← lintLanguagesSetting.get? t
  let extraCompilerArgs ← extraCompilerArgsSetting.get? t
  let headerFilter ← headerFilterSetting.get? t
  let args ← argsSetting.get? t
  let excludes ← excludesSetting.get? t
  let workspaceOnly ← workspaceOnlySetting.get? t
  let mergeStderr ← mergeStderrSetting.get? t
  let timeoutSecs ← timeoutSecsSetting.get? t
  some {
    executable, systemIncludePath, lintLanguages, extraCompilerArgs, headerFilter, args
    excludes, workspaceOnly, mergeStderr, timeoutSecs }

def default : Configuration where
  executable := executableSetting.default
  systemIncludePath := systemIncludePathSetting.default
  lintLanguages := lintLanguagesSetting.default
  extraCompilerArgs := extraCompilerArgsSetting.default
  headerFilter := headerFilterSetting.default
  args := argsSetting.default
  excludes := excludesSetting.default
  workspaceOnly := workspaceOnlySetting.default
  mergeStderr := mergeStderrSetting.default
  timeoutSecs := timeoutSecsSetting.default

def parse? (text : List Char) : Option Configuration := (Toml.parse? text).bind ofTable?

end Configuration

end LintReport
