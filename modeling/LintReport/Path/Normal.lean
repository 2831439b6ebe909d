import LintReport.Path

set_option autoImplicit false

/- Lexical normal forms. Dots are dropped and a double dot takes away the name in
front of it, or nothing at the root. The file system is not asked, so a link
counts as the directory it is written as. -/
namespace LintReport.Path

/-- One part folded onto the parts so far, the last of them in front. -/
def fold (stack : List Part) : Part → List Part
  | .current => stack
  | .parent =>
      match stack with
      | .name _ :: rest => rest
      | .root :: _ => stack
      | _ => .parent :: stack
  | part => part :: stack

def normalParts (parts : List Part) : List Part := (parts.foldl fold []).reverse

def normalize (p : Path) : Path :=
  match normalParts p.parts with
  | [] => ⟨"."⟩
  | parts => ofParts parts

/-- The directory that a walk along `parts` ends in, from the directory `base`
given by its names, the innermost in front. -/
def walk (base : List FileName) : List Part → List FileName
  | [] => base
  | .root :: rest => walk [] rest
  | .current :: rest => walk base rest
  | .parent :: rest => walk base.tail rest
  | .name n :: rest => walk (n :: base) rest

theorem walk_append (base : List FileName) (a b : List Part) :
    walk base (a ++ b) = walk (walk base a) b := by
  induction a generalizing base with
  | nil => rfl
  | cons part rest ih => cases part <;> exact ih _

/-- What the names of a path are put behind: the working directory `cwd`, or the root.
Two slashes in front stay two. -/
def anchor (cwd p : Path) : Path :=
  if !p.isAbsolute then cwd
  else if [separator, separator].isPrefixOf p.bytes &&
      !([separator, separator, separator].isPrefixOf p.bytes) then ⟨"//"⟩
  else ⟨"/"⟩

/-- The absolute spelling of a path in the working directory `cwd`; the empty path
has none. Double dots stay, and so does a slash at the end. -/
def absolute? (cwd p : Path) : Option Path :=
  if p.bytes.isEmpty then none
  else
    let named := p.parts.filter fun part => part ≠ .root ∧ part ≠ .current
    let full := named.foldl (fun (q : Path) part => q.child part.bytes) (anchor cwd p)
    some (if p.bytes.getLast? = some separator then full.child [] else full)

end LintReport.Path
