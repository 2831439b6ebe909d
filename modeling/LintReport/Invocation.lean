import LintReport.Profile

set_option autoImplicit false

/- How the analyzer is called for one document. -/
namespace LintReport

structure Invocation where
  program : String
  args : List String
  deriving DecidableEq, Repr

namespace Invocation

def dialect? (p : Profile) (language : String) : Option (String × String) :=
  if language = "c" then p.cStandard.map fun s => ("c", s)
  else if language = "cpp" then p.cppStandard.map fun s => ("c++", s)
  else none

def dialectArgs (p : Profile) (language : String) : List String :=
  match dialect? p language with
  | some (name, standard) =>
      ["-extra-arg-before=-x" ++ name, "-extra-arg-before=-std=" ++ standard]
  | none => []

/-- The call for a document: its path first, what all documents share, and at the end
what its language asks for. -/
def build (p : Profile) (path : Path) (language : String) : Invocation where
  program := p.executable
  args := path.text :: p.baseArgs ++ dialectArgs p language

def display (i : Invocation) : String := " ".intercalate (i.program :: i.args)

end Invocation

end LintReport
