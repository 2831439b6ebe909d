import LintReport.Configuration
import LintReport.Disk

set_option autoImplicit false

/- Configurations in layers: a user file, a project file, and a file that was asked
for. A later layer wins key by key. Of the first two a missing or broken file is
passed over; the third must be there and be right. -/
namespace LintReport

inductive ConfigurationError where
  | unreadable (path : Path) (reason : DiskError)
  | malformed (path : Path)
  deriving DecidableEq, Repr

namespace ConfigurationError

/-- What went wrong; the details of a malformed file are not told. -/
def message : ConfigurationError → String
  | .unreadable path reason =>
      "failed to read config " ++ path.text ++ ": " ++ reason.message
  | .malformed path => "failed to parse config " ++ path.text

def path : ConfigurationError → Path
  | .unreadable path _ => path
  | .malformed path => path

end ConfigurationError

structure LayerFile where
  path : Path
  content : Except DiskError (List Char)

namespace LayerFile

/-- The table of a layer. It must be a configuration by itself, and its integers must
fit a signed word, those of unknown keys too. Where a text is expected a date will do. -/
def table (f : LayerFile) : Except ConfigurationError Toml.Table :=
  match f.content with
  | .error reason => .error (.unreadable f.path reason)
  | .ok text =>
      match Toml.parse? text with
      | none => .error (.malformed f.path)
      | some table =>
          let texts := table.withDateTexts
          if (Toml.Value.table table).isPortable && (Configuration.ofTable? texts).isSome then
            .ok texts
          else .error (.malformed f.path)

end LayerFile

structure Layers where
  table : Toml.Table
  origin : Option Path
  deriving Repr

namespace Layers

def empty : Layers := ⟨[], none⟩

def add (l : Layers) (path : Path) (table : Toml.Table) : Layers :=
  ⟨Toml.Table.overlay l.table table, some path⟩

def addOptional (l : Layers) (f : LayerFile) : Layers :=
  match f.table with
  | .ok table => l.add f.path table
  | .error _ => l

def addRequired (l : Layers) (f : LayerFile) : Except ConfigurationError Layers :=
  f.table.map (l.add f.path)

end Layers

namespace Configuration

def projectFile : String := ".tidyscan.toml"

def userFile (home : Path) : Path := (home.child ".tidyscan").child "config.toml"

/-- The configuration of all layers. Two layers may disagree in the spelling of a
setting, and then it is there twice. -/
def ofLayers (l : Layers) : Except ConfigurationError Configuration :=
  match ofTable? l.table with
  | some c => .ok c
  | none => .error (.malformed (l.origin.getD ⟨projectFile⟩))

/-- The configuration of some files, the earlier ones passed over when broken. -/
def ofFiles (implicit : List LayerFile) (explicit : Option LayerFile) :
    Except ConfigurationError Configuration :=
  let layers := implicit.foldl Layers.addOptional Layers.empty
  match explicit with
  | none => ofLayers layers
  | some f => (layers.addRequired f).bind ofLayers

/-- The configuration for a user's home and a workspace. -/
def load (disk : Disk) (home : Path) (workspace explicit : Option Path) :
    Except ConfigurationError Configuration :=
  let file (p : Path) : LayerFile := ⟨p, disk.readText p⟩
  let project := workspace.map fun w => w.child projectFile
  ofFiles ((userFile home :: project.toList).map file) (explicit.map file)

end Configuration

end LintReport
