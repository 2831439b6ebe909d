import LintReport.Toml.Item
import LintReport.Toml.Scalar
import LintReport.Toml.Token

set_option autoImplicit false

/- TOML documents. A document is cut into statements at the line ends outside all
brackets, and a bracketed value into parts at its own commas. -/
namespace LintReport.Toml

def opens : Token → Bool
  | .mark '[' | .mark '{' => true
  | _ => false

def closes : Token → Bool
  | .mark ']' | .mark '}' => true
  | _ => false

/-- Cuts tokens at the separators outside all brackets. `part` holds the tokens since
the last one, the latest in front. Refuses brackets that do not balance. -/
def cut? (isSeparator : Token → Bool) :
    (depth : Nat) → (part : List Token) → List Token → Option (List (List Token))
  | 0, part, [] => some [part.reverse]
  | _ + 1, _, [] => none
  | depth, part, t :: rest =>
      if depth = 0 ∧ isSeparator t then (cut? isSeparator 0 [] rest).map (part.reverse :: ·)
      else if opens t then cut? isSeparator (depth + 1) (t :: part) rest
      else if closes t then
        match depth with
        | 0 => none
        | depth + 1 => cut? isSeparator depth (t :: part) rest
      else cut? isSeparator depth (t :: part) rest

def isBlankToken : Token → Bool
  | .space _ | .newline => true
  | _ => false

def isSpaceToken : Token → Bool
  | .space _ => true
  | _ => false

def strip (p : Token → Bool) (ts : List Token) : List Token :=
  ((ts.dropWhile p).reverse.dropWhile p).reverse

def isKeyChar (c : Char) : Bool :=
  ('0' ≤ c && c ≤ '9') || ('A' ≤ c && c ≤ 'Z') || ('a' ≤ c && c ≤ 'z') ||
    c = '_' || c = '-'

/-- One part of a key: a bare word or a quoted string. -/
def keyPart? (ts : List Token) : Option String :=
  match strip isSpaceToken ts with
  | [.word s] => if s.all isKeyChar then some (String.ofList s) else none
  | [.text s false] => some (String.ofList s)
  | _ => none

def key? (ts : List Token) : Option (List String × String) := do
  let parts ← (← cut? (· = .mark '.') 0 [] ts).mapM keyPart?
  let last ← parts.getLast?
  some (parts.dropLast, last)

/-- The text of a scalar without quotes, which dots and a space may cut in pieces. -/
def bareText? : List Token → Option (List Char)
  | [] => some []
  | .word s :: rest => (bareText? rest).map (s ++ ·)
  | .mark '.' :: rest => (bareText? rest).map ('.' :: ·)
  | .space [' '] :: rest => (bareText? rest).map (' ' :: ·)
  | _ => none

/-- The parts between the commas of a bracketed value. A comma may end them. -/
def parts? (ts : List Token) : Option (List (List Token)) :=
  (cut? (· = .mark ',') 0 [] ts).map fun parts =>
    match parts.getLast? with
    | some last => if last.all isBlankToken then parts.dropLast else parts
    | none => parts

def sides? : List Token → Option (List Token × List Token)
  | [] => none
  | t :: rest =>
      if t = .mark '=' then some ([], rest) else (sides? rest).map fun p => (t :: p.1, p.2)

structure Assignment where
  path : List String
  key : String
  value : Value
  deriving Repr

def assignAll? (assignments : List Assignment) (entries : Entries) : Option Entries :=
  assignments.foldlM (fun entries a => Entries.assign? a.path a.key a.value entries) entries

/-- The value that some tokens write. At most `depth` brackets may lie in each other. -/
def value? : (depth : Nat) → List Token → Option Value
  | depth, ts =>
      match strip isBlankToken ts with
      | [.text s _] => some (.text (String.ofList s))
      | .mark '[' :: rest =>
          match depth, rest.getLast? with
          | depth + 1, some (.mark ']') => do
              some (.array (← (← parts? rest.dropLast).mapM (value? depth)))
          | _, _ => none
      | .mark '{' :: rest =>
          match depth, rest.getLast? with
          | depth + 1, some (.mark '}') => do
              let assignments ← (← parts? rest.dropLast).mapM fun part => do
                let (name, written) ← sides? part
                let (path, key) ← key? (strip isBlankToken name)
                some (Assignment.mk path key (← value? depth written))
              some (.table (Item.entriesToTable (← assignAll? assignments [])))
          | _, _ => none
      | ts => (bareText? ts).bind scalar?

def nesting : Nat := 80

inductive Statement where
  | table (path : List String) (key : String)
  | element (path : List String) (key : String)
  | assignment (a : Assignment)
  deriving Repr

/-- The statement on a line that is not blank. -/
def statement? (line : List Token) : Option Statement :=
  match line with
  | .mark '[' :: .mark '[' :: rest =>
      match rest.reverse with
      | .mark ']' :: .mark ']' :: name =>
          (key? name.reverse).map fun k => .element k.1 k.2
      | _ => none
  | .mark '[' :: rest =>
      match rest.reverse with
      | .mark ']' :: name => (key? name.reverse).map fun k => .table k.1 k.2
      | _ => none
  | _ => do
      let (name, written) ← sides? line
      let (path, key) ← key? name
      some (.assignment ⟨path, key, ← value? nesting written⟩)

def leading : List Statement → List Assignment × List Statement
  | .assignment a :: rest => (a :: (leading rest).1, (leading rest).2)
  | rest => ([], rest)

/-- Adds the tables of a document from its first header on. Assignments belong to
the header in front of them. -/
def sections? : List Statement → Entries → Option Entries
  | [], entries => some entries
  | .table path key :: rest, entries =>
      (Entries.descend? (Entries.openTable? key (assignAll? (leading rest).1)) path
        entries).bind (sections? rest)
  | .element path key :: rest, entries =>
      (Entries.descend? (Entries.openElement? key (assignAll? (leading rest).1)) path
        entries).bind (sections? rest)
  | .assignment _ :: rest, entries => sections? rest entries

/-- The table that a document describes; `none` when it is no TOML document. -/
def parse? (s : List Char) : Option Table := do
  let lines ← cut? (· = .newline) 0 [] (← tokens? s)
  let statements ← ((lines.map (strip isSpaceToken)).filter (!·.isEmpty)).mapM statement?
  let entries ← assignAll? (leading statements).1 []
  some (Item.entriesToTable (← sections? statements entries))

end LintReport.Toml
