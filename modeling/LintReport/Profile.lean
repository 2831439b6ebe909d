import LintReport.Companion
import LintReport.Configuration

set_option autoImplicit false

/- A configuration made ready for a workspace: placeholders are substituted, paths
absolute, and the arguments that all documents share are put together. -/
namespace LintReport

structure Profile where
  executable : String
  lintLanguages : List String
  headerFilter : String
  systemIncludePaths : List Path
  extraCompilerArgs : List String
  args : List String
  excludes : List String
  workspaceOnly : Bool
  folders : List WorkspaceFolder
  defaultFolder : Path
  companion : Companion
  mergeStderr : Bool
  timeoutSecs : Option UInt64
  deriving DecidableEq, Repr

namespace Profile

/-- The first folder, or the working folder when there is none. -/
def defaultFolderOf (folders : List WorkspaceFolder) : Path :=
  match folders with
  | [] => ⟨"."⟩
  | folder :: _ => folder.path

def ofConfiguration (disk : Disk) (c : Configuration) (folders : List WorkspaceFolder) :
    Profile :=
  let defaultFolder := defaultFolderOf folders
  let substitute := Workspace.substitute defaultFolder folders
  { executable := c.executable
    lintLanguages := c.lintLanguages
    headerFilter := c.headerFilter
    systemIncludePaths :=
      c.systemIncludePath.map (Workspace.resolve disk.workingFolder defaultFolder folders)
    extraCompilerArgs := c.extraCompilerArgs.map substitute
    args := c.args.map substitute
    excludes := c.excludes.map substitute
    workspaceOnly := c.workspaceOnly
    folders := folders
    defaultFolder := defaultFolder
    companion := Companion.read disk folders
    mergeStderr := c.mergeStderr
    timeoutSecs := c.timeoutSecs }

def accepts (p : Profile) (language : String) : Bool := p.lintLanguages.contains language

def nonempty (s : Option String) : Option String := s.filter fun s => !s.isEmpty

def cStandard (p : Profile) : Option String := nonempty p.companion.cStandard

def cppStandard (p : Profile) : Option String := nonempty p.companion.cppStandard

def headerFilterArgs (p : Profile) : List String :=
  if p.headerFilter.isEmpty then [] else ["-header-filter=" ++ p.headerFilter]

/-- The arguments that do not depend on the document. -/
def baseArgs (p : Profile) : List String :=
  "--export-fixes=-" :: p.headerFilterArgs ++
    p.systemIncludePaths.map (fun path => "-extra-arg=-isystem" ++ path.text) ++
    p.extraCompilerArgs.map (fun arg => "-extra-arg-before=" ++ arg) ++
    p.args ++
    p.companion.includePaths.map (fun path => "-extra-arg=-I" ++ path.text)

end Profile

end LintReport
