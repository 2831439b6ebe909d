import LintReport.Yaml.Scalar
import LintReport.Yaml.Tag

set_option autoImplicit false

/- From characters to tokens. Indentation opens and closes block collections. A
key without an indicator is recognised only at the colon behind it, so the places
where keys may start are noted, and the tokens of a key are put there later. -/
namespace LintReport.Yaml

/-- A token that may turn out to start a key: its number, its place, and whether
only a key may stand there. -/
structure KeyStart where
  number : Nat
  place : Place
  required : Bool
  deriving Repr

/-- The state between two tokens. The latest of the `count` tokens is in front;
`candidates` has one entry for the block context and one for each open flow
collection, and `indents` the columns of the open block collections, the innermost
in front. -/
structure Lexer where
  cursor : Cursor
  tokens : List Token
  count : Nat
  candidates : List (Option KeyStart)
  indents : List Nat
  keyAllowed : Bool
  finished : Bool

namespace Lexer

def ofText (s : List Char) : Lexer where
  cursor := ⟨⟨0, 0, 0⟩, s⟩
  tokens := []
  count := 0
  candidates := [none]
  indents := []
  keyAllowed := true
  finished := false

def flow (l : Lexer) : Bool := l.candidates.length > 1

def indent (l : Lexer) : Int :=
  match l.indents with
  | [] => -1
  | column :: _ => column

def column (l : Lexer) : Nat := l.cursor.place.column

def emit (l : Lexer) (t : Token) : Lexer :=
  { l with tokens := t :: l.tokens, count := l.count + 1 }

def take (l : Lexer) (t : Token) (n : Nat) : Lexer :=
  { l.emit t with cursor := l.cursor.drop n }

def allowKey (l : Lexer) (b : Bool) : Lexer := { l with keyAllowed := b }

/-- Passes white space, comments and line ends, and tells whether a key may start
behind them. In the block context a tab cannot stand where a key may start, and a new
line may start a key. -/
def skipGaps (flow comment keyAllowed : Bool) (place : Place) : List Char → Cursor × Bool
  | [] => (⟨place, []⟩, keyAllowed)
  | c :: rest =>
      if isBreak c then
        if c = '\r' ∧ rest.head? = some '\n' then
          skipGaps flow comment keyAllowed place.next rest
        else skipGaps flow false (keyAllowed || !flow) place.nextLine rest
      else if comment ∨ c = '#' then skipGaps flow true keyAllowed place.next rest
      else if c = ' ' ∨ (c = '\t' ∧ (flow ∨ !keyAllowed)) then
        skipGaps flow false keyAllowed place.next rest
      else (⟨place, c :: rest⟩, keyAllowed)

/-- Whether a key that started there can still end here: on the same line, within
1024 characters. -/
def isStale (k : KeyStart) (here : Place) : Bool :=
  k.place.line < here.line || k.place.index + 1024 < here.index

def dropStale (here : Place) : List (Option KeyStart) → Option (List (Option KeyStart))
  | [] => some []
  | none :: rest => (dropStale here rest).map (none :: ·)
  | some k :: rest =>
      if isStale k here then
        if k.required then none else (dropStale here rest).map (none :: ·)
      else (dropStale here rest).map (some k :: ·)

/-- Gives up the innermost candidate; refused where only a key may stand. -/
def forgetKey (l : Lexer) : Option Lexer :=
  match l.candidates with
  | some k :: rest => if k.required then none else some { l with candidates := none :: rest }
  | _ => some l

/-- Notes that the next token may start a key. -/
def noteKey (l : Lexer) : Option Lexer :=
  if l.keyAllowed then
    (forgetKey l).map fun l =>
      let k : KeyStart :=
        ⟨l.count, l.cursor.place, !l.flow && l.indent == (l.column : Int)⟩
      { l with candidates := some k :: l.candidates.tail }
  else some l

/-- Closes the block collections that lie deeper than `column`. -/
def closeTo (column : Int) (l : Lexer) : Lexer :=
  if l.flow then l
  else
    let deeper := l.indents.takeWhile fun (i : Nat) => decide (column < (i : Int))
    { l with
      tokens := List.replicate deeper.length Token.blockEnd ++ l.tokens
      count := l.count + deeper.length
      indents := l.indents.drop deeper.length }

def openAt (column : Nat) (t : Token) (l : Lexer) : Lexer :=
  if !l.flow ∧ l.indent < (column : Int) then
    { l.emit t with indents := column :: l.indents }
  else l

def fetchEnd (l : Lexer) : Option Lexer :=
  (forgetKey (closeTo (-1) l)).map fun l => { l.emit .streamEnd with finished := true }

def fetchDirective (l : Lexer) : Option Lexer := do
  let l ← forgetKey (closeTo (-1) l)
  let (token, cursor) ← scanDirective l.cursor
  some { (l.allowKey false).emit token with cursor := cursor }

def fetchDocument (t : Token) (l : Lexer) : Option Lexer :=
  (forgetKey (closeTo (-1) l)).map fun l => (l.allowKey false).take t 3

def fetchFlowStart (t : Token) (l : Lexer) : Option Lexer :=
  (noteKey l).map fun l =>
    { (l.allowKey true).take t 1 with candidates := none :: l.candidates }

def fetchFlowEnd (t : Token) (l : Lexer) : Option Lexer :=
  (forgetKey l).map fun l =>
    let candidates := match l.candidates with
      | _ :: outer :: rest => outer :: rest
      | c => c
    { (l.allowKey false).take t 1 with candidates := candidates }

def fetchFlowEntry (l : Lexer) : Option Lexer :=
  (forgetKey l).map fun l => (l.allowKey true).take .flowEntry 1

def fetchBlockEntry (l : Lexer) : Option Lexer :=
  if !l.flow ∧ !l.keyAllowed then none
  else
    (forgetKey (openAt l.column .blockSequenceStart l)).map fun l =>
      (l.allowKey true).take .blockEntry 1

def fetchKey (l : Lexer) : Option Lexer :=
  if !l.flow ∧ !l.keyAllowed then none
  else
    (forgetKey (openAt l.column .blockMappingStart l)).map fun l =>
      (l.allowKey (!l.flow)).take .key 1

/-- Puts the tokens of a key behind the first `number` tokens. -/
def insertKey (number : Nat) (opens : Bool) (l : Lexer) : Lexer :=
  let newer := l.count - number
  let key := if opens then [Token.key, .blockMappingStart] else [Token.key]
  { l with
    tokens := l.tokens.take newer ++ key ++ l.tokens.drop newer
    count := l.count + key.length }

/-- The colon behind a key. When the key was noted it becomes one now, and may
open a block mapping at its own column. -/
def fetchValue (l : Lexer) : Option Lexer :=
  match l.candidates with
  | some k :: rest =>
      let opens := !l.flow && l.indent < (k.place.column : Int)
      some {
        ((l.insertKey k.number opens).allowKey false).take .value 1 with
        candidates := none :: rest
        indents := if opens then k.place.column :: l.indents else l.indents }
  | _ =>
      if !l.flow ∧ !l.keyAllowed then none
      else some (((openAt l.column .blockMappingStart l).allowKey (!l.flow)).take .value 1)

def fetchNamed (token : String → Token) (l : Lexer) : Option Lexer := do
  let l ← noteKey l
  let (name, cursor) ← scanName l.cursor
  some { (l.allowKey false).emit (token name) with cursor := cursor }

def fetchTag (l : Lexer) : Option Lexer := do
  let l ← noteKey l
  let (token, cursor) ← scanTag l.flow l.cursor
  some { (l.allowKey false).emit token with cursor := cursor }

/-- The chomping and indentation indicators behind `|` or `>`, in either order. An
indentation of zero is refused. -/
def blockHeader? (c : Cursor) : Option (Chomping × Nat × Cursor) :=
  let chomping? (c : Cursor) : Option (Chomping × Cursor) :=
    match c.rest with
    | '+' :: _ => some (.keep, c.drop 1)
    | '-' :: _ => some (.strip, c.drop 1)
    | _ => none
  let increment? (c : Cursor) : Option (Nat × Cursor) :=
    match c.rest with
    | d :: _ =>
        if d = '0' then none
        else if Text.isDigit d then some (d.toNat - '0'.toNat, c.drop 1)
        else some (0, c)
    | [] => some (0, c)
  match chomping? c with
  | some (chomping, c) => (increment? c).map fun p => (chomping, p.1, p.2)
  | none =>
      match increment? c with
      | none => none
      | some (0, c) => some (.clip, 0, c)
      | some (n, c) =>
          match chomping? c with
          | some (chomping, c) => some (chomping, n, c)
          | none => some (.clip, n, c)

/-- A block scalar from its indicator on. -/
def fetchBlockScalar (literal : Bool) (l : Lexer) : Option Lexer := do
  let l ← forgetKey l
  let (chomping, increment, c) ← blockHeader? (l.cursor.drop 1)
  let c := c.skipWhile isSpace
  let c := if c.rest.head? = some '#' then c.skipWhile (!isBreak ·) else c
  if !atLineEnd c.rest then none
  let c := c.skipBreak
  let base := (max l.indent 0).toNat
  let indent := if increment = 0 then 0 else base + increment
  let least := max (l.indent + 1).toNat 1
  let s ← scanBlock literal chomping least false indent 0 BlockText.empty c.place c.rest
  some { (l.allowKey true).emit (.scalar (String.ofList s.text.reverse) false) with
    cursor := s.after }

def fetchQuoted (double : Bool) (l : Lexer) : Option Lexer := do
  let l ← noteKey l
  let c := l.cursor.drop 1
  let s ← if double then scanDouble [] Gap.none c.place c.rest
    else scanSingle [] Gap.none c.place c.rest
  some { (l.allowKey false).emit (.scalar (String.ofList s.text.reverse) false) with
    cursor := s.after }

/-- A plain scalar. When it ends behind a line end, a key may start next. -/
def fetchPlain (l : Lexer) : Option Lexer := do
  let l ← noteKey l
  let s ← scanPlain l.flow (l.indent + 1) [] Gap.none l.cursor.place l.cursor.rest
  some { (l.allowKey s.broken).emit (.scalar (String.ofList s.text.reverse) true) with
    cursor := s.after }

def startsPlain (flow : Bool) (c : Char) (rest : List Char) : Bool :=
  !(isSpace c || isBreak c || "-?:,[]\x7b\x7d#&*!|>'\"%@\x60".toList.contains c) ||
    (c = '-' && !rest.head?.any isSpace) ||
    (!flow && (c = '?' || c = ':') && !atGap rest)

/-- Reads the next token, where there is white space no more. -/
def fetchHere (l : Lexer) : Option Lexer :=
  match l.cursor.rest with
  | [] => fetchEnd l
  | c :: rest =>
      let first := l.column = 0
      if first ∧ c = '%' then fetchDirective l
      else if first ∧ atMarker '-' (c :: rest) then fetchDocument .documentStart l
      else if first ∧ atMarker '.' (c :: rest) then fetchDocument .documentEnd l
      else if c = '[' then fetchFlowStart .flowSequenceStart l
      else if c = '{' then fetchFlowStart .flowMappingStart l
      else if c = ']' then fetchFlowEnd .flowSequenceEnd l
      else if c = '}' then fetchFlowEnd .flowMappingEnd l
      else if c = ',' then fetchFlowEntry l
      else if c = '-' ∧ atGap rest then fetchBlockEntry l
      else if c = '?' ∧ (l.flow ∨ atGap rest) then fetchKey l
      else if c = ':' ∧ (l.flow ∨ atGap rest) then fetchValue l
      else if c = '*' then fetchNamed .alias l
      else if c = '&' then fetchNamed .anchor l
      else if c = '!' then fetchTag l
      else if c = '|' ∧ !l.flow then fetchBlockScalar true l
      else if c = '>' ∧ !l.flow then fetchBlockScalar false l
      else if c = '\'' then fetchQuoted false l
      else if c = '"' then fetchQuoted true l
      else if startsPlain l.flow c rest then fetchPlain l
      else none

def fetch (l : Lexer) : Option Lexer := do
  let (cursor, keyAllowed) := skipGaps l.flow false l.keyAllowed l.cursor.place l.cursor.rest
  let candidates ← dropStale cursor.place l.candidates
  fetchHere (closeTo cursor.place.column { l with cursor, keyAllowed, candidates })

def run : (fuel : Nat) → Lexer → Option Lexer
  | 0, _ => none
  | fuel + 1, l => if l.finished then some l else (fetch l).bind (run fuel)

end Lexer

def tokens? (s : List Char) : Option (List Token) :=
  if s.all isAllowed then
    (Lexer.run (s.length + 2) (Lexer.ofText s)).map fun l => l.tokens.reverse
  else none

end LintReport.Yaml
