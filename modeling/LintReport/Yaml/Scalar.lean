import LintReport.Text.Decimal
import LintReport.Yaml.Token

set_option autoImplicit false

/- The three ways to write a scalar: plain, quoted, and as a block of lines. Each
reader takes the characters one by one and collects the text of the scalar in
`text`, the last character in front. -/
namespace LintReport.Yaml

/-- A scalar that was read, and what follows it. `broken` tells that the white
space behind a plain scalar held a line end. -/
structure Scanned where
  text : List Char
  broken : Bool
  after : Cursor

def endsPlain (flow : Bool) (c : Char) (rest : List Char) : Bool :=
  (c = ':' && atGap rest) ||
    (flow && (c = ',' || c = '[' || c = ']' || c = '{' || c = '}'))

/-- A colon in a flow collection that neither ends a key nor belongs to a word. -/
def isStrayColon (flow : Bool) (c : Char) (rest : List Char) : Bool :=
  flow && c = ':' &&
    match rest with
    | d :: _ => d = ',' || d = '?' || d = '[' || d = ']' || d = '{' || d = '}'
    | [] => false

/-- Whether the white space before the next character has ended a plain scalar:
the line is indented too little, a document ends, or a comment starts. -/
def endsPlainAfterGap (flow : Bool) (indent : Int) (gap : Gap) (place : Place)
    (s : List Char) : Bool :=
  !gap.isEmpty &&
    ((!flow && (place.column : Int) < indent) || (place.column = 0 && atDocumentMarker s) ||
      s.head? = some '#')

/-- A plain scalar. `indent` is the column that its further lines must reach. A tab
may not stand in for that indentation. -/
def scanPlain (flow : Bool) (indent : Int) (text : List Char) (gap : Gap) (place : Place) :
    List Char → Option Scanned
  | [] => some ⟨text, gap.folded, ⟨place, []⟩⟩
  | c :: rest =>
      if isBreak c then
        if c = '\r' ∧ rest.head? = some '\n' then
          scanPlain flow indent text gap place.next rest
        else scanPlain flow indent text (gap.addBreak c) place.nextLine rest
      else if isSpace c then
        if gap.folded ∧ (place.column : Int) < indent ∧ c = '\t' then none
        else scanPlain flow indent text (gap.addSpace c) place.next rest
      else if endsPlainAfterGap flow indent gap place (c :: rest) then
        some ⟨text, gap.folded, ⟨place, c :: rest⟩⟩
      else if isStrayColon flow c rest then none
      else if endsPlain flow c rest then some ⟨text, gap.folded, ⟨place, c :: rest⟩⟩
      else scanPlain flow indent (c :: gap.text.reverse ++ text) Gap.none place.next rest

def scanSingle (text : List Char) (gap : Gap) (place : Place) : List Char → Option Scanned
  | [] => none
  | '\'' :: '\'' :: rest =>
      scanSingle ('\'' :: gap.text.reverse ++ text) Gap.none (place.advance 2) rest
  | c :: rest =>
      if isBreak c then
        if c = '\r' ∧ rest.head? = some '\n' then scanSingle text gap place.next rest
        else scanSingle text (gap.addBreak c) place.nextLine rest
      else if isSpace c then scanSingle text (gap.addSpace c) place.next rest
      else if place.column = 0 ∧ atDocumentMarker (c :: rest) then none
      else if c = '\'' then some ⟨gap.text.reverse ++ text, false, ⟨place.next, rest⟩⟩
      else scanSingle (c :: gap.text.reverse ++ text) Gap.none place.next rest

def escapeLetter? (c : Char) : Option Char :=
  match c with
  | '0' => some '\x00'
  | 'a' => some '\x07'
  | 'b' => some '\x08'
  | 't' | '\t' => some '\t'
  | 'n' => some '\n'
  | 'v' => some '\x0b'
  | 'f' => some '\x0c'
  | 'r' => some '\r'
  | 'e' => some '\x1b'
  | ' ' => some ' '
  | '"' => some '"'
  | '/' => some '/'
  | '\\' => some '\\'
  | 'N' => some '\u0085'
  | '_' => some '\u00a0'
  | 'L' => some '\u2028'
  | 'P' => some '\u2029'
  | _ => none

def escapeDigits (c : Char) : Nat :=
  if c = 'x' then 2 else if c = 'u' then 4 else if c = 'U' then 8 else 0

def charOf? (n : Nat) : Option Char :=
  if h : n.isValidChar then some ⟨n.toUInt32, by
    have hn : n < UInt32.size := by
      rcases h with h | ⟨_, h⟩ <;> simp only [UInt32.size] <;> omega
    simpa [UInt32.isValidChar, UInt32.toNat_ofNat_of_lt' hn] using h⟩
  else none

/-- The escape behind a backslash: its character and its length. -/
def escape? : List Char → Option (Char × Nat)
  | [] => none
  | c :: rest =>
      let n := escapeDigits c
      if n = 0 then (escapeLetter? c).map fun d => (d, 1)
      else if (rest.take n).length < n then none
      else ((Text.number? 16 (rest.take n)).bind charOf?).map fun d => (d, n + 1)

def scanDouble (text : List Char) (gap : Gap) (place : Place) (s : List Char) :
    Option Scanned :=
  match s with
  | [] => none
  | '\\' :: '\r' :: '\n' :: rest =>
      scanDouble (gap.text.reverse ++ text) Gap.escapedBreak (place.advance 2).nextLine rest
  | c :: rest =>
      if isBreak c then
        if c = '\r' ∧ rest.head? = some '\n' then scanDouble text gap place.next rest
        else scanDouble text (gap.addBreak c) place.nextLine rest
      else if isSpace c then scanDouble text (gap.addSpace c) place.next rest
      else if place.column = 0 ∧ atDocumentMarker (c :: rest) then none
      else if c = '"' then some ⟨gap.text.reverse ++ text, false, ⟨place.next, rest⟩⟩
      else if c = '\\' then
        match rest with
        | [] => none
        | b :: after =>
            if isBreak b then
              scanDouble (gap.text.reverse ++ text) Gap.escapedBreak place.next.nextLine after
            else
              match escape? (b :: after) with
              | none => none
              | some (d, n) =>
                  scanDouble (d :: gap.text.reverse ++ text) Gap.none (place.advance (n + 1))
                    ((b :: after).drop n)
      else scanDouble (c :: gap.text.reverse ++ text) Gap.none place.next rest
  termination_by s.length
  decreasing_by all_goals simp <;> omega

inductive Chomping where
  | strip
  | clip
  | keep
  deriving DecidableEq, Repr

/-- A block scalar while it is read: its text so far, the end of the last line and
the empty lines since, and whether the last line began with white space. -/
structure BlockText where
  text : List Char
  lastBreak : Option Char
  emptyLines : List Char
  indentedLine : Bool

namespace BlockText

def empty : BlockText := ⟨[], .none, [], false⟩

/-- Starts a line with `c`. Between lines that do not begin with white space a
folded scalar has a space, or the empty lines. -/
def startLine (b : BlockText) (literal : Bool) (c : Char) : BlockText :=
  let kept := b.lastBreak.toList
  let joint : List Char :=
    if !literal ∧ b.lastBreak = some '\n' ∧ !b.indentedLine ∧ !isSpace c then
      if b.emptyLines.isEmpty then [' '] else b.emptyLines
    else kept ++ b.emptyLines
  ⟨c :: joint.reverse ++ b.text, .none, [], isSpace c⟩

def finish (b : BlockText) (chomping : Chomping) : List Char :=
  match chomping with
  | .strip => b.text
  | .clip => b.lastBreak.toList ++ b.text
  | .keep => b.emptyLines.reverse ++ b.lastBreak.toList ++ b.text

end BlockText

/-- The lines of a block scalar. `indent` is their column, or zero while no line
has shown it; then `widest` is the widest run of spaces so far and `least` the
least column allowed. `inLine` tells that the line's indentation has been passed. -/
def scanBlock (literal : Bool) (chomping : Chomping) (least : Nat) (inLine : Bool)
    (indent widest : Nat) (b : BlockText) (place : Place) : List Char → Option Scanned
  | [] => some ⟨b.finish chomping, false, ⟨place, []⟩⟩
  | c :: rest =>
      if isBreak c ∧ c = '\r' ∧ rest.head? = some '\n' then
        scanBlock literal chomping least inLine indent (max widest place.column) b
          { place.next with column := place.column } rest
      else if inLine then
        if isBreak c then
          scanBlock literal chomping least false indent widest
            { b with lastBreak := some (breakText c) } place.nextLine rest
        else
          scanBlock literal chomping least true indent widest
            { b with text := c :: b.text } place.next rest
      else if c = ' ' ∧ (indent = 0 ∨ place.column < indent) then
        scanBlock literal chomping least false indent widest b place.next rest
      else if c = '\t' ∧ (indent = 0 ∨ place.column < indent) then none
      else if isBreak c then
        scanBlock literal chomping least false indent (max widest place.column)
          { b with emptyLines := b.emptyLines ++ [breakText c] } place.nextLine rest
      else
        let column := if indent = 0 then max (max widest place.column) least else indent
        if place.column = column then
          scanBlock literal chomping least true column widest (b.startLine literal c)
            place.next rest
        else some ⟨b.finish chomping, false, ⟨place, c :: rest⟩⟩

end LintReport.Yaml
