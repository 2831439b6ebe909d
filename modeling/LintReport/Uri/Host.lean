import LintReport.Text.Utf8
import LintReport.Text.Search
import LintReport.Uri.Percent

set_option autoImplicit false

/- Hosts in addresses, as far as it matters whether a host is the local one. Host
names are compared after their characters are folded to plain small letters. -/
namespace LintReport.Uri

/-- Alphabets outside ASCII: where one starts, which letter it starts with, and how
many letters it has. -/
def alphabets : List (Nat × Char × Nat) :=
  [(0x41, 'a', 26), (0xFF21, 'a', 26), (0xFF41, 'a', 26), (0x24B6, 'a', 26),
    (0x24D0, 'a', 26), (0x1F130, 'a', 26)]

/-- The code points between the mathematical letters that are no letters. -/
def mathematicalGaps : List Nat :=
  [0x1D455, 0x1D49D, 0x1D4A0, 0x1D4A1, 0x1D4A3, 0x1D4A4, 0x1D4A7, 0x1D4A8, 0x1D4AD, 0x1D4BA,
    0x1D4BC, 0x1D4C4, 0x1D506, 0x1D50B, 0x1D50C, 0x1D515, 0x1D51D, 0x1D53A, 0x1D53F, 0x1D545,
    0x1D547, 0x1D548, 0x1D549, 0x1D551]

/-- Single characters, and the letters that they fold to. -/
def singleLetters : List (Nat × String) :=
  [(0x00AA, "a"), (0x1D2C, "a"), (0x1D43, "a"), (0x2090, "a"), (0x1D9C, "c"), (0x2102, "c"),
    (0x212D, "c"), (0x216D, "c"), (0x217D, "c"), (0x1F12B, "c"), (0x02B0, "h"), (0x1D34, "h"),
    (0x210B, "h"), (0x210C, "h"), (0x210D, "h"), (0x210E, "h"), (0x2095, "h"), (0x02E1, "l"),
    (0x1D38, "l"), (0x2097, "l"), (0x2112, "l"), (0x2113, "l"), (0x216C, "l"), (0x217C, "l"),
    (0x00BA, "o"), (0x1D3C, "o"), (0x1D52, "o"), (0x2092, "o"), (0x2134, "o"), (0x017F, "s"),
    (0x02E2, "s"), (0x209B, "s"), (0xA7F1, "s"), (0x1D40, "t"), (0x1D57, "t"), (0x209C, "t"),
    (0xFB05, "st"), (0xFB06, "st"), (0x3388, "cal")]

def ignoredRanges : List (Nat × Nat) :=
  [(0xAD, 0xAD), (0x34F, 0x34F), (0x180B, 0x180D), (0x180F, 0x180F), (0x200B, 0x200B),
    (0x2060, 0x2060), (0x2064, 0x2064), (0xFE00, 0xFE0F), (0xFEFF, 0xFEFF),
    (0x1BCA0, 0x1BCA3), (0xE0100, 0xE01EF)]

def letterAt (first : Char) (n : Nat) : List Char := [Char.ofNat (first.toNat + n)]

/-- What a character of a host name folds to. -/
def foldHostChar (c : Char) : List Char :=
  let n := c.toNat
  if ignoredRanges.any fun r => r.1 ≤ n && n ≤ r.2 then []
  else
    match alphabets.find? fun a => a.1 ≤ n && n < a.1 + a.2.2 with
    | some a => letterAt a.2.1 (n - a.1)
    | none =>
        if 0x1D400 ≤ n ∧ n ≤ 0x1D6A3 ∧ n ∉ mathematicalGaps then
          letterAt 'a' ((n - 0x1D400) % 26)
        else
          match singleLetters.find? fun e => e.1 = n with
          | some e => e.2.toList
          | none => [c]

def hostName? (host : List Char) : Option (List Char) :=
  (Utf8.decode? (percentDecode 0 host)).map fun name => name.flatMap foldHostChar

def localName : List Char := "localhost".toList

def isLocalHost (host : List Char) : Bool := hostName? host = some localName

def isForbidden (c : Char) : Bool :=
  c.toNat ≤ 0x20 || c.toNat = 0x7F || "#/:<>?@[\\]^|%".toList.contains c

/-- A part of a numeric host, in decimal, octal or hexadecimal digits. -/
def hostNumber? (part : List Char) : Option Nat :=
  match part with
  | '0' :: 'x' :: [] => some 0
  | '0' :: 'x' :: digits => Text.number? 16 digits
  | '0' :: d :: digits => Text.number? 8 (d :: digits)
  | _ => Text.number? 10 part

def labels (name : List Char) : List (List Char) :=
  let parts := Text.splitOn '.' name
  if parts.length > 1 ∧ parts.getLast? = some [] then parts.dropLast else parts

def isNumeric (name : List Char) : Bool :=
  match (labels name).getLast? with
  | some part => !part.isEmpty && (part.all Text.isDigit || (hostNumber? part).isSome)
  | none => false

/-- Whether the parts of a numeric host write a number of 32 bits. -/
def isNumber (name : List Char) : Bool :=
  match (labels name).mapM hostNumber? with
  | some numbers =>
      numbers.length ≤ 4 && numbers.dropLast.all (· ≤ 255) &&
        numbers.getLast?.any (· < Nat.pow 256 (5 - numbers.length))
  | none => false

/-- Whether a host names some machine. -/
def isHost (host : List Char) : Bool :=
  match host with
  | '[' :: address =>
      address.getLast? = some ']' &&
        address.dropLast.all fun c => (Text.digit? c).isSome || c = ':' || c = '.'
  | _ =>
      match hostName? host with
      | some name =>
          !name.isEmpty && !name.any isForbidden && (!isNumeric name || isNumber name)
      | none => false

end LintReport.Uri
