set_option autoImplicit false

/- TOML values. Numbers with a fraction are kept as they were written, dates as they
are printed. -/
namespace LintReport.Toml

inductive Value where
  | text (s : String)
  | integer (n : Int)
  | float (written : String)
  | bool (b : Bool)
  | date (printed : String)
  | array (items : List Value)
  | table (entries : List (String × Value))
  deriving Repr, Inhabited

/-- A table with its keys in the order they were given; no key is there twice. -/
abbrev Table := List (String × Value)

namespace Value

def wordLimit : Int := 0x8000000000000000

def isWord (n : Int) : Bool := -wordLimit ≤ n && n < wordLimit

mutual

/-- Whether each integer in a value fits a signed word of 64 bits. -/
def isPortable : Value → Bool
  | .integer n => isWord n
  | .array items => arePortable items
  | .table entries => areEntriesPortable entries
  | _ => true

def arePortable : List Value → Bool
  | [] => true
  | item :: rest => isPortable item && arePortable rest

def areEntriesPortable : List (String × Value) → Bool
  | [] => true
  | (_, value) :: rest => isPortable value && areEntriesPortable rest

end

theorem arePortable_eq_all (items : List Value) : arePortable items = items.all isPortable := by
  induction items with
  | nil => rfl
  | cons item rest ih => simp [arePortable, ih]

theorem areEntriesPortable_eq_all (entries : List (String × Value)) :
    areEntriesPortable entries = entries.all fun e => e.2.isPortable := by
  induction entries with
  | nil => rfl
  | cons e rest ih => simp [areEntriesPortable, ih]

def dateText : Value → Value
  | .date printed => .text printed
  | v => v

def withDateTexts : Value → Value
  | .array items => .array (items.map dateText)
  | v => v.dateText

end Value

namespace Table

def find? (t : Table) (key : String) : Option Value :=
  (List.find? (fun e => decide (e.1 = key)) t).map Prod.snd

/-- `later` laid over `t`: its keys win, nested tables are not joined. -/
def overlay (t later : Table) : Table :=
  (t.filter fun e => (later.find? e.1).isNone) ++ later

/-- The table in which dates count as texts, also those in a list. -/
def withDateTexts (t : Table) : Table := t.map fun e => (e.1, e.2.withDateTexts)

end Table

end LintReport.Toml
