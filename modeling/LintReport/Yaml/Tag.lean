import LintReport.Text.Decimal
import LintReport.Text.Utf8
import LintReport.Yaml.Token

set_option autoImplicit false

/- Tags, anchors and directives. A tag is a handle with a suffix; a directive at
the start of a document may say what a handle stands for. -/
namespace LintReport.Yaml

/-- The characters of a tag's suffix. Those of flow collections count only where
the tag is written out in full. -/
def isTagChar (full : Bool) (c : Char) : Bool :=
  isWord c || ";/?:@&=+$.%!~*'()".toList.contains c || (full && (c = ',' || c = '[' || c = ']'))

def percentBytes : List Char → List UInt8 × List Char
  | '%' :: a :: b :: rest =>
      match Text.number? 16 [a, b] with
      | some n =>
          let p := percentBytes rest
          (n.toUInt8 :: p.1, p.2)
      | none => ([], '%' :: a :: b :: rest)
  | s => ([], s)

/-- Resolves the `%XX` escapes of a suffix; refuses bytes that are no UTF-8. -/
def unescapeTag (fuel : Nat) (s : List Char) : Option (List Char) :=
  match fuel, s with
  | _, [] => some []
  | 0, _ => none
  | fuel + 1, '%' :: rest =>
      match percentBytes ('%' :: rest) with
      | ([], _) => none
      | (bytes, left) => do
          let chars ← Utf8.decode? bytes
          (unescapeTag fuel left).map (chars ++ ·)
  | fuel + 1, c :: rest => (unescapeTag fuel rest).map (c :: ·)

def tagSuffix? (full : Bool) (c : Cursor) : Option (List Char × Cursor) :=
  let raw := c.rest.takeWhile (isTagChar full)
  (unescapeTag raw.length raw).map fun s => (s, c.drop raw.length)

/-- A handle: `!`, a word, and `!` again if it is there. -/
def tagHandle? (c : Cursor) : Option (List Char × Cursor) :=
  match c.rest with
  | '!' :: rest =>
      let word := rest.takeWhile isWord
      match rest.dropWhile isWord with
      | '!' :: _ => some ('!' :: word ++ ['!'], c.drop (word.length + 2))
      | _ => some ('!' :: word, c.drop (word.length + 1))
  | _ => none

/-- A tag in one of its forms: `!<…>`, `!handle!suffix`, `!suffix` or `!`. -/
def tagParts? (c : Cursor) : Option (String × String × Cursor) :=
  match c.rest with
  | '!' :: '<' :: _ =>
      match tagSuffix? true (c.drop 2) with
      | some (suffix, after) =>
          if suffix.isEmpty then none
          else
            match after.rest with
            | '>' :: _ => some ("", String.ofList suffix, after.drop 1)
            | _ => none
      | none => none
  | _ =>
      match tagHandle? c with
      | none => none
      | some (handle, after) =>
          match tagSuffix? false after with
          | none => none
          | some (suffix, after) =>
              if handle.length ≥ 2 ∧ handle.getLast? = some '!' then
                if suffix.isEmpty then none
                else some (String.ofList handle, String.ofList suffix, after)
              else
                let whole := handle.tail ++ suffix
                if whole.isEmpty then some ("", "!", after)
                else some ("!", String.ofList whole, after)

/-- A tag token. White space must follow, or a comma in a flow collection. -/
def scanTag (flow : Bool) (c : Cursor) : Option (Token × Cursor) :=
  match tagParts? c with
  | none => none
  | some (handle, suffix, after) =>
      if atGap after.rest ∨ (flow ∧ after.rest.head? = some ',') then
        some (.tag handle suffix, after)
      else none

def scanName (c : Cursor) : Option (String × Cursor) :=
  let name := (c.rest.drop 1).takeWhile isWord
  let after := c.drop (name.length + 1)
  let closed := match after.rest with
    | [] => true
    | d :: _ => isSpace d || isBreak d || "?:,]\x7d%@\x60".toList.contains d
  if name.isEmpty ∨ !closed then none else some (String.ofList name, after)

def versionNumber? (c : Cursor) : Option (Nat × Cursor) :=
  let digits := c.rest.takeWhile Text.isDigit
  if digits.length > 9 then none
  else (Text.number? 10 digits).map fun n => (n, c.drop digits.length)

def versionValue? (c : Cursor) : Option (Token × Cursor) :=
  match versionNumber? c with
  | some (major, after) =>
      match after.rest with
      | '.' :: _ => (versionNumber? (after.drop 1)).map fun p => (.version major p.1, p.2)
      | _ => none
  | none => none

def shorthandValue? (c : Cursor) : Option (Token × Cursor) :=
  match tagHandle? c with
  | none => none
  | some (handle, after) =>
      let named := handle.length = 1 ∨ handle.getLast? = some '!'
      if named ∧ after.rest.head?.any isSpace then
        match tagSuffix? true (after.skipWhile isSpace) with
        | some (start, after) =>
            if !start.isEmpty ∧ atGap after.rest then
              some (.shorthand (String.ofList handle) (String.ofList start), after)
            else none
        | none => none
      else none

def scanDirective (c : Cursor) : Option (Token × Cursor) :=
  let name := (c.rest.drop 1).takeWhile isWord
  let after := c.drop (name.length + 1)
  let value? : Option (Token × Cursor) :=
    if !atGap after.rest then none
    else if name = "YAML".toList then versionValue? (after.skipWhile isSpace)
    else if name = "TAG".toList then shorthandValue? (after.skipWhile isSpace)
    else none
  match value? with
  | none => none
  | some (token, after) =>
      let after := after.skipWhile isSpace
      let after := if after.rest.head? = some '#' then after.skipWhile (!isBreak ·) else after
      if atLineEnd after.rest then some (token, after.skipBreak) else none

end LintReport.Yaml
