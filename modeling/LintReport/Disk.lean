import LintReport.Disk.Node
import LintReport.Path.Normal
import LintReport.Text.Utf8

set_option autoImplicit false

/- A tree of files with a working directory, and how paths lead through it. A
double dot leads to the directory that holds the one reached so far, which behind
a link is not the one that the path spells. -/
namespace LintReport

inductive DiskError where
  | notFound
  | notDirectory
  | isDirectory
  | denied
  | nameTooLong
  | tooManyLinks
  | nulByte
  | notText
  deriving DecidableEq, Repr

namespace DiskError

def message : DiskError → String
  | .notFound => "No such file or directory (os error 2)"
  | .notDirectory => "Not a directory (os error 20)"
  | .isDirectory => "Is a directory (os error 21)"
  | .denied => "Permission denied (os error 13)"
  | .nameTooLong => "File name too long (os error 36)"
  | .tooManyLinks => "Too many levels of symbolic links (os error 40)"
  | .nulByte => "file name contained an unexpected NUL byte"
  | .notText => "stream did not contain valid UTF-8"

end DiskError

structure Disk where
  root : Disk.Node
  /-- The working directory: absolute, and without links. -/
  workingFolder : Path
  deriving Repr

/-- The nodes passed on the way from the root, the last in front. -/
abbrev Trail := List (FileName × Disk.Node)

namespace Disk

/-- The steps that a path asks for. A dot, and a slash at the end, ask for a
directory. -/
def stepsOf (p : Path) : List Path.Part :=
  let pieces := (Text.splitOn Path.separator p.bytes).filter fun piece => !piece.isEmpty
  let steps : List Path.Part := pieces.map fun piece =>
    if piece = [Path.period] then .current
    else if piece = [Path.period, Path.period] then .parent
    else .name piece
  let anchor : List Path.Part := if p.isAbsolute then [.root] else []
  anchor ++ steps ++ (if p.bytes.getLast? = some Path.separator then [.current] else [])

/-- How a walk ends: at a node, at a link that leads on, or not at all. -/
inductive Walk where
  | arrived (trail : Trail)
  | link (trail : Trail) (target : Path) (rest : List Path.Part)
  | failed (e : DiskError)

def reached (root : Node) (trail : Trail) : Node := (trail.head?.map Prod.snd).getD root

def looksUp : Path.Part → Bool
  | .parent | .name _ => true
  | _ => false

def walk (root : Node) : Trail → List Path.Part → Walk
  | trail, [] => .arrived trail
  | trail, step :: rest =>
      if !(reached root trail).isDirectory then .failed .notDirectory
      else if looksUp step && !(reached root trail).rights.enter then .failed .denied
      else
        match step with
        | .root => walk root [] rest
        | .current => walk root trail rest
        | .parent => walk root trail.tail rest
        | .name n =>
            if n.length > longestName then .failed .nameTooLong
            else
              match (reached root trail).child? n with
              | none => .failed .notFound
              | some (.link target) => .link trail ⟨target⟩ rest
              | some node => walk root ((n, node) :: trail) rest

/-- Walks on through links, of which at most `links` may be met. -/
def follow (root : Node) : (links : Nat) → Trail → List Path.Part → Except DiskError Trail
  | links, trail, steps =>
      match walk root trail steps with
      | .arrived trail => .ok trail
      | .failed e => .error e
      | .link trail target rest =>
          match links with
          | 0 => .error .tooManyLinks
          | links + 1 => follow root links trail (stepsOf target ++ rest)

def maxLinks : Nat := 40

/-- The trail to the node that a path leads to. -/
def locate (d : Disk) (p : Path) : Except DiskError Trail :=
  if p.bytes.contains 0 then .error .nulByte
  else if p.bytes.isEmpty then .error .notFound
  else if p.bytes.length > longestPath then .error .nameTooLong
  else follow d.root maxLinks [] (stepsOf (d.workingFolder.join p))

def find? (d : Disk) (p : Path) : Except DiskError Node := (d.locate p).map (reached d.root)

def read (d : Disk) (p : Path) : Except DiskError (List UInt8) :=
  match d.find? p with
  | .ok node =>
      if !node.isReadable then .error .denied
      else
        match node with
        | .file content _ _ => .ok content
        | _ => .error .isDirectory
  | .error e => .error e

/-- The content of a file that must be UTF-8. -/
def readText (d : Disk) (p : Path) : Except DiskError (List Char) :=
  match d.read p with
  | .ok content =>
      match Utf8.decode? content with
      | some text => .ok text
      | none => .error .notText
  | .error e => .error e

def isFile (d : Disk) (p : Path) : Bool :=
  match d.find? p with
  | .ok (.file _ _ _) => true
  | _ => false

def isRunnable (d : Disk) (p : Path) : Bool :=
  match d.find? p with
  | .ok node => node.isRunnable
  | _ => false

/-- The directories below a path, or only those right below it. A path that leads to
no directory has none. -/
def foldersBelow (d : Disk) (deep : Bool) (p : Path) : List Path :=
  match d.find? p with
  | .ok node => if deep then node.folders p else node.topFolders p
  | .error _ => []

/-- The names that lead straight to where a path ends, whether or not it is there. -/
def namesOf (d : Disk) (p : Path) : List FileName :=
  match d.locate p with
  | .ok trail => trail.reverse.map Prod.fst
  | .error _ => (Path.walk [] (d.workingFolder.join p).parts).reverse

def write (d : Disk) (p : Path) (content : List UInt8) : Disk :=
  let file (old : Option Node) : Option Node :=
    some (.file content (old.any Node.isRunnable) (old.all Node.isReadable))
  { d with root := d.root.alter file (d.namesOf p) }

/-- Takes a file or a link away. -/
def remove (d : Disk) (p : Path) : Disk :=
  match p.parent, p.fileName with
  | some parent, some name =>
      let folder := if parent.bytes.isEmpty then d.workingFolder else parent
      { d with root := d.root.alter (fun _ => none) (d.namesOf folder ++ [name]) }
  | _, _ => d

theorem find?_eq (d : Disk) (p : Path) : d.find? p = (d.locate p).map (reached d.root) := rfl

end Disk

end LintReport
