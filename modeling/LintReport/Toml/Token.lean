import LintReport.Text.Decimal
import LintReport.Text.Search

set_option autoImplicit false

/- The tokens of a TOML document. Quoted strings are resolved here; comments are
checked and left out; what else stands between separators is a word. -/
namespace LintReport.Toml

inductive Token where
  | space (written : List Char)
  | newline
  | mark (c : Char)
  | text (s : List Char) (multiline : Bool)
  | word (s : List Char)
  deriving DecidableEq, Repr, Inhabited

def isSpace (c : Char) : Bool := c = ' ' || c = '\t'

def isPrintable (c : Char) : Bool := c = '\t' || (c.toNat ≥ 0x20 && c.toNat ≠ 0x7F)

def isMark (c : Char) : Bool :=
  c = '.' || c = '=' || c = ',' || c = '[' || c = ']' || c = '{' || c = '}'

def isWordChar (c : Char) : Bool :=
  !(isMark c || isSpace c || c = '#' || c = '\r' || c = '\n')

def scalarValue? (n : Nat) : Option Char :=
  if n < 0xD800 ∨ (0xE000 ≤ n ∧ n < 0x110000) then some (Char.ofNat n) else none

def numericLength (c : Char) : Nat :=
  if c = 'x' then 2 else if c = 'u' then 4 else if c = 'U' then 8 else 0

def letter? (c : Char) : Option Char :=
  match c with
  | 'b' => some '\x08'
  | 't' => some '\t'
  | 'n' => some '\n'
  | 'f' => some '\x0c'
  | 'r' => some '\r'
  | 'e' => some '\x1b'
  | '"' => some '"'
  | '\\' => some '\\'
  | _ => none

def escape? : List Char → Option (Char × Nat)
  | [] => none
  | c :: rest =>
      let n := numericLength c
      if n = 0 then (letter? c).map fun d => (d, 1)
      else if (rest.take n).length < n then none
      else ((Text.number? 16 (rest.take n)).bind scalarValue?).map fun d => (d, n + 1)

/-- Whether a line ends behind the spaces in front of a text. -/
def endsLine (s : List Char) : Bool :=
  match s.dropWhile isSpace with
  | '\n' :: _ => true
  | '\r' :: '\n' :: _ => true
  | _ => false

/-- Where a quoted string goes on: after `n` more characters that an escape has used
up, or behind the white space after a backslash at the end of a line. -/
inductive Pause where
  | skip (n : Nat)
  | gap
  deriving DecidableEq, Repr

def basic? : (skip : Nat) → List Char → Option (List Char × List Char)
  | _, [] => none
  | skip + 1, _ :: rest => basic? skip rest
  | 0, '"' :: rest => some ([], rest)
  | 0, '\\' :: rest =>
      match escape? rest with
      | some (d, n) => (basic? n rest).map fun p => (d :: p.1, p.2)
      | none => none
  | 0, c :: rest =>
      if isPrintable c then (basic? 0 rest).map fun p => (c :: p.1, p.2) else none

def literal? : List Char → Option (List Char × List Char)
  | [] => none
  | c :: rest =>
      if c = '\'' then some ([], rest)
      else if isPrintable c then (literal? rest).map fun p => (c :: p.1, p.2)
      else none

def quotes (quote : Char) (s : List Char) : Nat := ((s.take 5).takeWhile (· = quote)).length

/-- A string of several lines in double quotes, behind the opening ones. -/
def multiBasic? : Pause → List Char → Option (List Char × List Char)
  | _, [] => none
  | .skip (n + 1), _ :: rest => multiBasic? (.skip n) rest
  | pause, c :: rest =>
      if pause = .gap ∧ (isSpace c ∨ c = '\n' ∨ (c = '\r' ∧ rest.head? = some '\n')) then
        multiBasic? .gap rest
      else if c = '"' then
        let n := quotes '"' (c :: rest)
        if n ≥ 3 then some (List.replicate (n - 3) '"', (c :: rest).drop n)
        else (multiBasic? (.skip 0) rest).map fun p => (c :: p.1, p.2)
      else if c = '\\' then
        if endsLine rest then multiBasic? .gap rest
        else
          match escape? rest with
          | some (d, n) => (multiBasic? (.skip n) rest).map fun p => (d :: p.1, p.2)
          | none => none
      else if isPrintable c ∨ c = '\n' ∨ (c = '\r' ∧ rest.head? = some '\n') then
        (multiBasic? (.skip 0) rest).map fun p => (c :: p.1, p.2)
      else none

/-- A string of several lines between apostrophes, behind the opening ones. -/
def multiLiteral? : List Char → Option (List Char × List Char)
  | [] => none
  | c :: rest =>
      if c = '\'' then
        let n := quotes '\'' (c :: rest)
        if n ≥ 3 then some (List.replicate (n - 3) '\'', (c :: rest).drop n)
        else (multiLiteral? rest).map fun p => (c :: p.1, p.2)
      else if isPrintable c ∨ c = '\n' ∨ (c = '\r' ∧ rest.head? = some '\n') then
        (multiLiteral? rest).map fun p => (c :: p.1, p.2)
      else none

/-- A line end right behind the opening quotes does not count. -/
def skipFirstLine : List Char → List Char
  | '\n' :: rest => rest
  | '\r' :: '\n' :: rest => rest
  | s => s

def stringToken (multiline : Bool) (p : List Char × List Char) : Token × List Char :=
  (.text p.1 multiline, p.2)

/-- The token at the front of a text that is no comment. -/
def token? : List Char → Option (Token × List Char)
  | [] => none
  | '\n' :: rest => some (.newline, rest)
  | '\r' :: '\n' :: rest => some (.newline, rest)
  | '\r' :: _ => none
  | '"' :: '"' :: '"' :: rest =>
      (multiBasic? (.skip 0) (skipFirstLine rest)).map (stringToken true)
  | '"' :: rest => (basic? 0 rest).map (stringToken false)
  | '\'' :: '\'' :: '\'' :: rest =>
      (multiLiteral? (skipFirstLine rest)).map (stringToken true)
  | '\'' :: rest => (literal? rest).map (stringToken false)
  | c :: rest =>
      if isMark c then some (.mark c, rest)
      else if isSpace c then
        some (.space (c :: rest.takeWhile isSpace), rest.dropWhile isSpace)
      else some (.word (c :: rest.takeWhile isWordChar), rest.dropWhile isWordChar)

/-- The tokens of a text; each step takes a character at least. -/
def tokensFrom? : (fuel : Nat) → List Char → Option (List Token)
  | _, [] => some []
  | 0, _ => none
  | fuel + 1, '#' :: rest =>
      let comment := rest.takeWhile fun c => c ≠ '\n' && c ≠ '\r'
      if comment.all isPrintable then tokensFrom? fuel (rest.drop comment.length) else none
  | fuel + 1, s =>
      match token? s with
      | some (t, rest) => (tokensFrom? fuel rest).map (t :: ·)
      | none => none

def byteOrderMark : Char := '\uFEFF'

/-- The tokens of a document. A byte order mark in front does not count. -/
def tokens? (s : List Char) : Option (List Token) :=
  match s with
  | c :: rest =>
      if c = byteOrderMark then tokensFrom? rest.length rest else tokensFrom? s.length s
  | [] => some []

end LintReport.Toml
