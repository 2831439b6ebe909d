import LintReport.Toml.Value

set_option autoImplicit false

/- Tables while a document is read. A table remembers what it came from, because
that decides who may still add to it. Values, among them inline tables, are final. -/
namespace LintReport.Toml

/-- What a table came from: its own header, the header of a table below it, or a
dotted key. -/
inductive Origin where
  | header
  | implied
  | dotted
  deriving DecidableEq, Repr

/-- The content of a key. Of several tables under one key only the last is open. -/
inductive Item where
  | value (v : Value)
  | table (origin : Origin) (entries : List (String × Item))
  | tables (before : List Value) (last : List (String × Item))
  deriving Repr, Inhabited

namespace Item

mutual

def toValue : Item → Value
  | .value v => v
  | .table _ entries => .table (entriesToTable entries)
  | .tables before last => .array (before ++ [.table (entriesToTable last)])

def entriesToTable : List (String × Item) → Table
  | [] => []
  | (key, item) :: rest => (key, item.toValue) :: entriesToTable rest

end

end Item

abbrev Entries := List (String × Item)

namespace Entries

/-- Changes what is under a key; `f` sees it and may refuse. -/
def alter? (key : String) (f : Option Item → Option Item) : Entries → Option Entries
  | [] => (f none).map fun item => [(key, item)]
  | (k, item) :: rest =>
      if k = key then (f (some item)).map fun item => (k, item) :: rest
      else (alter? key f rest).map ((k, item) :: ·)

/-- Sets a key that is not there yet, below the tables named by `path`. Such tables
are made here; one made by a header is closed to dotted keys. -/
def assign? : (path : List String) → (key : String) → Value → Entries → Option Entries
  | [], key, v, entries =>
      alter? key (fun
        | none => some (.value v)
        | some _ => none) entries
  | name :: path, key, v, entries =>
      alter? name (fun
        | none => (assign? path key v []).map (.table .dotted)
        | some (.table .dotted below) => (assign? path key v below).map (.table .dotted)
        | some (.table .implied below) =>
            if path.isEmpty then none else (assign? path key v below).map (.table .implied)
        | some (.tables before last) =>
            if path.isEmpty then none else (assign? path key v last).map (.tables before)
        | some _ => none) entries

def descend? (f : Entries → Option Entries) : (path : List String) → Entries → Option Entries
  | [], entries => f entries
  | name :: path, entries =>
      alter? name (fun
        | none => (descend? f path []).map (.table .implied)
        | some (.table origin below) => (descend? f path below).map (.table origin)
        | some (.tables before last) => (descend? f path last).map (.tables before)
        | some (.value _) => none) entries

def openTable? (key : String) (fill : Entries → Option Entries) : Entries → Option Entries :=
  alter? key fun
    | none => (fill []).map (.table .header)
    | some (.table .implied below) => (fill below).map (.table .header)
    | some _ => none

def openElement? (key : String) (fill : Entries → Option Entries) : Entries → Option Entries :=
  alter? key fun
    | none => (fill []).map (.tables [])
    | some (.tables before last) =>
        (fill []).map (.tables (before ++ [.table (Item.entriesToTable last)]))
    | some _ => none

end Entries

end LintReport.Toml
