import LintReport.Path.Normal
import LintReport.Uri

set_option autoImplicit false

/- The folders that an editor has open, and texts that refer to them. -/
namespace LintReport

structure WorkspaceFolder where
  name : String
  path : Path
  deriving DecidableEq, Repr

namespace WorkspaceFolder

def named (name : String) (path : Path) : WorkspaceFolder := ⟨name, path.normalize⟩

def ofPath (path : Path) : WorkspaceFolder := named (Utf8.lossy (path.fileName.getD [])) path

/-- The folder at an address; `none` unless the address names a file here. -/
def ofUri? (name uri : String) : Option WorkspaceFolder := (Uri.toPath? uri).map (named name)

end WorkspaceFolder

namespace Workspace

def placeholder : List Char := "$\x7bworkspaceFolder\x7d".toList

def namedPlaceholder (name : String) : List Char :=
  "$\x7bworkspaceFolder:".toList ++ name.toList ++ ['}']

/-- Puts the paths of the folders in the place of their placeholders: first that of
the default folder, then those of the named ones in order. -/
def substituteChars (defaultFolder : Path) (folders : List WorkspaceFolder)
    (raw : List Char) : List Char :=
  folders.foldl (fun text folder =>
    Text.replaceAll (namedPlaceholder folder.name) folder.path.text.toList text)
    (Text.replaceAll placeholder defaultFolder.text.toList raw)

def substitute (defaultFolder : Path) (folders : List WorkspaceFolder) (raw : String) : String :=
  String.ofList (substituteChars defaultFolder folders raw.toList)

/-- The path that a text means: placeholders substituted, relative paths put behind
the default folder and that behind the working folder, and in normal form. -/
def resolve (workingFolder defaultFolder : Path) (folders : List WorkspaceFolder)
    (raw : String) : Path :=
  let joined := defaultFolder.join ⟨substitute defaultFolder folders raw⟩
  ((Path.absolute? workingFolder joined).getD joined).normalize

end Workspace

end LintReport
