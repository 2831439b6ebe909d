import LintReport.Disk
import LintReport.Position.LineIndex

set_option autoImplicit false

/- Documents: what is analyzed, and what diagnostics point into. -/
namespace LintReport

/-- The content of a file in some version. The path is in normal form. -/
structure Document where
  path : Path
  language : String
  version : Int
  content : List UInt8
  deriving DecidableEq, Repr

namespace Document

def ofContent (path : Path) (language : String) (version : Int) (content : List UInt8) :
    Document :=
  ⟨path.normalize, language, version, content⟩

/-- The document at a path. It is read where the path leads and named as the path is
spelled. -/
def read (disk : Disk) (path : Path) (language : String) : Except DiskError Document :=
  (disk.read path).map (ofContent path language 0)

def positionAt (d : Document) (offset : Nat) : Position :=
  (LineIndex.ofContent d.content).positionAt offset

end Document

end LintReport
