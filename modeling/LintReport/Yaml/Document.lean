import LintReport.Yaml.Node

set_option autoImplicit false

/- Documents with their anchors. An alias stands for a numbered target. A new
anchor gets the number of names known so far, so that an anchor whose name was
there before shares its number with the next new name, and the later one holds. -/
namespace LintReport.Yaml

structure Numbering where
  /-- How many nodes came before. -/
  position : Nat
  names : List (String × Nat)
  /-- For each number the position of its node, the latest in front. -/
  targets : List (Nat × Nat)

namespace Numbering

def enter (n : Numbering) (anchor : Option String) : Numbering :=
  match anchor with
  | none => { n with position := n.position + 1 }
  | some a =>
      let number := n.names.length
      { position := n.position + 1
        names := (a, number) :: n.names.filter fun e => e.1 ≠ a
        targets := (number, n.position) :: n.targets }

end Numbering

mutual

/-- Numbers the anchors of a node and looks its aliases up; an alias without an
anchor before it is refused. -/
def Node.link (n : Numbering) : Node String → Option (Node Nat × Numbering)
  | .alias name =>
      (n.names.find? fun e => e.1 = name).map fun e => (.alias e.2, n.enter none)
  | .scalar tag anchor text plain => some (.scalar tag anchor text plain, n.enter anchor)
  | .sequence tag anchor items =>
      (linkItems (n.enter anchor) items).map fun r => (.sequence tag anchor r.1, r.2)
  | .mapping tag anchor entries =>
      (linkEntries (n.enter anchor) entries).map fun r => (.mapping tag anchor r.1, r.2)

def Node.linkItems (n : Numbering) : List (Node String) → Option (List (Node Nat) × Numbering)
  | [] => some ([], n)
  | item :: rest =>
      match Node.link n item with
      | none => none
      | some (item, n) => (linkItems n rest).map fun r => (item :: r.1, r.2)

def Node.linkEntries (n : Numbering) :
    List (Node String × Node String) → Option (List (Node Nat × Node Nat) × Numbering)
  | [] => some ([], n)
  | (key, value) :: rest =>
      match Node.link n key with
      | none => none
      | some (key, n) =>
          match Node.link n value with
          | none => none
          | some (value, n) => (linkEntries n rest).map fun r => ((key, value) :: r.1, r.2)

end

mutual

def Node.preorder {α : Type} : Node α → List (Node α)
  | .sequence tag anchor items => .sequence tag anchor items :: preorderItems items
  | .mapping tag anchor entries => .mapping tag anchor entries :: preorderEntries entries
  | node => [node]

def Node.preorderItems {α : Type} : List (Node α) → List (Node α)
  | [] => []
  | item :: rest => Node.preorder item ++ preorderItems rest

def Node.preorderEntries {α : Type} : List (Node α × Node α) → List (Node α)
  | [] => []
  | (key, value) :: rest => Node.preorder key ++ Node.preorder value ++ preorderEntries rest

end

def Node.isCollection {α : Type} : Node α → Bool
  | .sequence .. | .mapping .. => true
  | _ => false

structure Document where
  root : Node Nat
  nodes : List (Node Nat)
  targets : List (Nat × Nat)

namespace Document

/-- The document of a text; `none` unless the text holds one document, or nothing. -/
def parse? (s : List Char) : Option Document := do
  let ts ← tokens? s
  let (root, n) ← (← Node.root? ts).link ⟨0, [], []⟩
  some ⟨root, root.preorder, n.targets⟩

def target? (d : Document) (number : Nat) : Option (Node Nat) :=
  (d.targets.find? fun e => e.1 = number).bind fun e => d.nodes[e.2]?

def size (d : Document) : Nat :=
  d.nodes.length + (d.nodes.filter Node.isCollection).length

end Document

end LintReport.Yaml
