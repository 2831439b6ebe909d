import LintReport.Disk
import LintReport.Json.Fields
import LintReport.Json.Parse
import LintReport.Workspace

set_option autoImplicit false

/- Settings that an editor keeps in a workspace folder beside the sources: where
headers lie and which language standards hold. A folder without such a file, or with
one that cannot be read, adds nothing. -/
namespace LintReport

/-- One configuration of a settings file. -/
structure CompanionEntry where
  includePath : List String
  cStandard : Option String
  cppStandard : Option String
  deriving DecidableEq, Repr

namespace CompanionEntry

def textsOf? (j : Json) : Option (List String) :=
  j.asArray?.bind fun items => items.mapM Json.asText?

/-- A standard, which may be `null`. It may be missing from an object, not from a list
of fields. -/
def standardOf? (f : Json.Fields) (i : Nat) : Option (Option String) :=
  match f.get i with
  | none => if f.positional then none else some none
  | some .null => some none
  | some j => j.asText?.map some

def ofJson? (j : Json) : Option CompanionEntry := do
  let f ← j.fields? ["includePath", "cStandard", "cppStandard"]
  let includePath ← match f.get 0 with
    | none => some []
    | some j => textsOf? j
  some ⟨includePath, ← standardOf? f 1, ← standardOf? f 2⟩

/-- The configurations in a settings file. -/
def parse? (text : List Char) : Option (List CompanionEntry) := do
  let f ← (← Json.parse? text).fields? ["configurations"]
  match f.get 0 with
  | none => some []
  | some j => (← j.asArray?).mapM ofJson?

end CompanionEntry

/-- What the settings files of all folders say together. -/
structure Companion where
  includePaths : List Path
  cStandard : Option String
  cppStandard : Option String
  deriving DecidableEq, Repr

namespace Companion

def empty : Companion := ⟨[], none, none⟩

def addPath (paths : List Path) (p : Path) : List Path :=
  if paths.any fun q => decide (Path.Same q p) then paths else paths ++ [p]

/-- What stands before `ending` at the end of a text. -/
def before? (ending text : List Char) : Option (List Char) :=
  if ending.isSuffixOf text then some (text.take (text.length - ending.length)) else none

/-- The directories that a pattern names: `/**` at its end stands for the directory
and all below it, `/*` for the directory and those right below it. -/
def expand (disk : Disk) (pattern : Path) : List Path :=
  let text := pattern.text.toList
  match before? "/**".toList text with
  | some base => ⟨Utf8.encode base⟩ :: disk.foldersBelow true ⟨Utf8.encode base⟩
  | none =>
      match before? "/*".toList text with
      | some base => ⟨Utf8.encode base⟩ :: disk.foldersBelow false ⟨Utf8.encode base⟩
      | none => [pattern]

def entryPaths (disk : Disk) (folders : List WorkspaceFolder) (folder : Path)
    (entry : CompanionEntry) : List Path :=
  entry.includePath.flatMap fun raw =>
    expand disk (Workspace.resolve disk.workingFolder folder folders raw)

/-- Adds one entry; its standards win over the earlier ones. -/
def absorb (disk : Disk) (folders : List WorkspaceFolder) (folder : Path) (c : Companion)
    (entry : CompanionEntry) : Companion where
  includePaths := (entryPaths disk folders folder entry).foldl addPath c.includePaths
  cStandard := entry.cStandard.or c.cStandard
  cppStandard := entry.cppStandard.or c.cppStandard

def fileIn (folder : Path) : Path := (folder.child ".vscode").child "c_cpp_properties.json"

def entriesOf (disk : Disk) (folder : Path) : List CompanionEntry :=
  match disk.readText (fileIn folder) with
  | .ok text => (CompanionEntry.parse? text).getD []
  | .error _ => []

def read (disk : Disk) (folders : List WorkspaceFolder) : Companion :=
  folders.foldl (fun c folder =>
    (entriesOf disk folder.path).foldl (absorb disk folders folder.path) c) empty

end Companion

end LintReport
