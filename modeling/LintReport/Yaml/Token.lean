set_option autoImplicit false

/- The tokens of a YAML stream and the places between its characters. -/
namespace LintReport.Yaml

/-- A place in a text. Columns and lines count from zero; a carriage return with a
line feed is one line end. -/
structure Place where
  index : Nat
  line : Nat
  column : Nat
  deriving DecidableEq, Repr, Inhabited

namespace Place

def next (p : Place) : Place := { p with index := p.index + 1, column := p.column + 1 }

def advance (p : Place) (n : Nat) : Place :=
  { p with index := p.index + n, column := p.column + n }

def nextLine (p : Place) : Place := ⟨p.index + 1, p.line + 1, 0⟩

end Place

structure Cursor where
  place : Place
  rest : List Char
  deriving Repr, Inhabited

inductive Token where
  | version (major minor : Nat)
  | shorthand (handle : String) (start : String)
  | documentStart
  | documentEnd
  | streamEnd
  | blockSequenceStart
  | blockMappingStart
  | blockEnd
  | flowSequenceStart
  | flowSequenceEnd
  | flowMappingStart
  | flowMappingEnd
  | blockEntry
  | flowEntry
  | key
  | value
  | alias (name : String)
  | anchor (name : String)
  | tag (handle suffix : String)
  | scalar (text : String) (plain : Bool)
  deriving DecidableEq, Repr, Inhabited

def isSpace (c : Char) : Bool := c = ' ' || c = '\t'

def isBreak (c : Char) : Bool :=
  c = '\n' || c = '\r' || c = '\u0085' || c = '\u2028' || c = '\u2029'

/-- What a line end contributes to a scalar: the Unicode separators stand for
themselves, any other line end is a line feed. -/
def breakText (c : Char) : Char := if c = '\u2028' ∨ c = '\u2029' then c else '\n'

def isWord (c : Char) : Bool :=
  ('0' ≤ c && c ≤ '9') || ('A' ≤ c && c ≤ 'Z') || ('a' ≤ c && c ≤ 'z') ||
    c = '_' || c = '-'

def atGap : List Char → Bool
  | [] => true
  | c :: _ => isSpace c || isBreak c

def atLineEnd : List Char → Bool
  | [] => true
  | c :: _ => isBreak c

def atMarker (c : Char) : List Char → Bool
  | c₁ :: c₂ :: c₃ :: rest => c₁ = c && c₂ = c && c₃ = c && atGap rest
  | _ => false

def atDocumentMarker (s : List Char) : Bool := atMarker '-' s || atMarker '.' s

def isAllowed (c : Char) : Bool :=
  let n := c.toNat
  n = 0x09 || n = 0x0A || n = 0x0D || (0x20 ≤ n && n ≤ 0x7E) || n = 0x85 ||
    (0xA0 ≤ n && n ≤ 0xD7FF) || (0xE000 ≤ n && n ≤ 0xFFFD && n ≠ 0xFEFF) || 0x10000 ≤ n

namespace Cursor

def skipWhile (p : Char → Bool) (c : Cursor) : Cursor :=
  ⟨c.place.advance (c.rest.takeWhile p).length, c.rest.dropWhile p⟩

def drop (c : Cursor) (n : Nat) : Cursor := ⟨c.place.advance n, c.rest.drop n⟩

/-- Passes one line end, if one comes next. -/
def skipBreak (c : Cursor) : Cursor :=
  match c.rest with
  | '\r' :: '\n' :: rest => ⟨c.place.next.nextLine, rest⟩
  | b :: rest => if isBreak b then ⟨c.place.nextLine, rest⟩ else c
  | [] => c

end Cursor

/-- The white space inside a scalar that may turn out to be folded: the spaces of
one line or, once a line end was passed, that line end and those after it. -/
structure Gap where
  folded : Bool
  spaces : List Char
  first : Option Char
  more : List Char
  deriving Repr

namespace Gap

def none : Gap := ⟨false, [], .none, []⟩

/-- The gap after a line end that was taken back by an escape. -/
def escapedBreak : Gap := ⟨true, [], .none, []⟩

def isEmpty (g : Gap) : Bool := !g.folded && g.spaces.isEmpty

def addSpace (g : Gap) (c : Char) : Gap :=
  if g.folded then g else { g with spaces := g.spaces ++ [c] }

def addBreak (g : Gap) (c : Char) : Gap :=
  if g.folded then { g with more := g.more ++ [breakText c] }
  else ⟨true, [], some (breakText c), []⟩

/-- What the gap contributes to the scalar. A single line feed is folded into a
space; in a longer run the first line feed is dropped. -/
def text (g : Gap) : List Char :=
  if g.folded then
    match g.first with
    | some '\n' => if g.more.isEmpty then [' '] else g.more
    | some c => c :: g.more
    | .none => g.more
  else g.spaces

end Gap

end LintReport.Yaml
