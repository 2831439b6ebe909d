import LintReport.Text.Decimal

set_option autoImplicit false

/- JSON values and their compact text. A value that was read may hold what this
library never writes: a number that is no plain natural, and a string or member
name with an escape that names half a character. -/
namespace LintReport

inductive Json where
  | null
  | bool (b : Bool)
  | natural (n : Nat)
  | otherNumber
  | text (s : String)
  | brokenText
  | array (items : List Json)
  | object (members : List (Option String × Json))
  deriving Repr, Inhabited

namespace Json

def record (members : List (String × Json)) : Json :=
  .object (members.map fun m => (some m.1, m.2))

def hexDigit (n : Nat) : Char := Nat.digitChar n

/-- One character of a quoted string. Only quotes, backslashes and controls are
escaped. -/
def escape (c : Char) : List Char :=
  if c = '"' then ['\\', '"']
  else if c = '\\' then ['\\', '\\']
  else if c = '\x08' then ['\\', 'b']
  else if c = '\x0c' then ['\\', 'f']
  else if c = '\n' then ['\\', 'n']
  else if c = '\r' then ['\\', 'r']
  else if c = '\t' then ['\\', 't']
  else if c.toNat < 0x20 then
    ['\\', 'u', '0', '0', hexDigit (c.toNat / 16), hexDigit (c.toNat % 16)]
  else [c]

def quoted (s : String) : List Char := '"' :: s.toList.flatMap escape ++ ['"']

mutual

/-- The text without spaces. -/
def render : Json → List Char
  | .null => ['n', 'u', 'l', 'l']
  | .bool true => ['t', 'r', 'u', 'e']
  | .bool false => ['f', 'a', 'l', 's', 'e']
  | .natural n => Text.decimal n
  | .otherNumber => ['0']
  | .text s => quoted s
  | .brokenText => quoted ""
  | .array items => '[' :: renderItems items ++ [']']
  | .object members => '{' :: renderMembers members ++ ['}']

def renderItems : List Json → List Char
  | [] => []
  | [item] => render item
  | item :: rest => render item ++ ',' :: renderItems rest

def renderMembers : List (Option String × Json) → List Char
  | [] => []
  | [(key, value)] => quoted (key.getD "") ++ ':' :: render value
  | (key, value) :: rest => quoted (key.getD "") ++ ':' :: render value ++ ',' :: renderMembers rest

end

def compact (j : Json) : String := String.ofList j.render

end Json

end LintReport
