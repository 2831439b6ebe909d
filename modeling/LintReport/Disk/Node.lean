import LintReport.Path

set_option autoImplicit false

/- Files, directories and symbolic links. A link keeps the bytes of its target. -/
namespace LintReport.Disk

/-- The longest name of an entry, and the longest path, in bytes. -/
def longestName : Nat := 255
def longestPath : Nat := 4095

/-- What may be done in a directory: its entries listed, and paths led through it. -/
structure Rights where
  list : Bool
  enter : Bool
  deriving DecidableEq, Repr, Inhabited

def Rights.all : Rights := ⟨true, true⟩

inductive Node where
  | file (content : List UInt8) (runnable : Bool) (readable : Bool := true)
  | directory (entries : List (FileName × Node)) (rights : Rights := .all)
  | link (target : List UInt8)
  deriving Repr, Inhabited

namespace Node

def isDirectory : Node → Bool
  | .directory _ _ => true
  | _ => false

def isRunnable : Node → Bool
  | .file _ runnable _ => runnable
  | _ => false

def isReadable : Node → Bool
  | .file _ _ readable => readable
  | .directory _ rights => rights.list
  | .link _ => true

def entries : Node → List (FileName × Node)
  | .directory entries _ => entries
  | _ => []

def rights : Node → Rights
  | .directory _ rights => rights
  | _ => .all

def child? (n : Node) (name : FileName) : Option Node :=
  (n.entries.find? fun e => e.1 = name).map Prod.snd

def setEntry (name : FileName) (node : Node) : List (FileName × Node) → List (FileName × Node)
  | [] => [(name, node)]
  | e :: rest => if e.1 = name then (name, node) :: rest else e :: setEntry name node rest

/-- Changes what lies at the end of a way of names, with directories made on the way;
`none` takes it away. -/
def alter (f : Option Node → Option Node) : (names : List FileName) → Node → Node
  | [], n => (f (some n)).getD n
  | [name], n =>
      match f (n.child? name) with
      | some new => .directory (setEntry name new n.entries) n.rights
      | none => .directory (n.entries.filter fun e => e.1 ≠ name) n.rights
  | name :: rest, n =>
      let below := alter f rest ((n.child? name).getD (.directory []))
      .directory (setEntry name below n.entries) n.rights

/-- Whether a directory with these rights can be opened at a path and listed. -/
def listed (path : Path) (rights : Rights) : Bool :=
  rights.list && decide (path.bytes.length ≤ longestPath)

mutual

/-- The directories below a directory, in front of each the one it lies in, and those
beside each other in the order of their names. Links are not entered, and where the
entries of a directory cannot be listed there is nothing below it. -/
def folders (path : Path) : Node → List Path
  | .directory entries rights =>
      if listed path rights then
        ((entryFolders path rights entries).mergeSort fun a b =>
          (Ord.compare a.1 b.1).isLE).flatMap Prod.snd
      else []
  | _ => []

/-- For each directory among the entries, itself and the directories below it, which
are out of reach when the directory that holds it cannot be entered. -/
def entryFolders (path : Path) (rights : Rights) :
    List (FileName × Node) → List (FileName × List Path)
  | [] => []
  | (name, .directory entries inner) :: rest =>
      (name, path.child name ::
        if rights.enter then folders (path.child name) (.directory entries inner) else []) ::
          entryFolders path rights rest
  | _ :: rest => entryFolders path rights rest

end

/-- The directories right below a directory, in the order of their names. -/
def topFolders (path : Path) (n : Node) : List Path :=
  if listed path n.rights then
    (((n.entries.filter fun e => e.2.isDirectory).map Prod.fst).mergeSort fun a b =>
      (Ord.compare a b).isLE).map path.child
  else []

end Node

end LintReport.Disk
