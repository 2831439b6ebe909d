import LintReport.Text.Search
import LintReport.Text.Utf8

set_option autoImplicit false

/- Paths with `/` between their parts. A path keeps the bytes it was written with,
which need not be UTF-8; its meaning is the list of its parts, where repeated slashes
and inner dots do not count. Paths are compared part by part. -/
namespace LintReport

abbrev FileName := List UInt8

structure Path where
  bytes : List UInt8
  deriving DecidableEq, Repr, Inhabited

namespace Path

@[match_pattern] abbrev separator : UInt8 := 0x2F

@[match_pattern] abbrev period : UInt8 := 0x2E

/-- The path as it is shown and passed on, with a replacement character for each
piece that is no UTF-8. -/
def text (p : Path) : String := Utf8.lossy p.bytes

/-- The path as it is written into a record; `none` unless it is UTF-8. -/
def text? (p : Path) : Option String := Utf8.text? p.bytes

inductive Part where
  | root
  | current
  | parent
  | name (n : FileName)
  deriving DecidableEq, Repr

namespace Part

/-- Parts sort by kind, in the order of their declaration; names by their bytes. -/
def compare : Part → Part → Ordering
  | .root, .root => .eq
  | .root, _ => .lt
  | .current, .root => .gt
  | .current, .current => .eq
  | .current, _ => .lt
  | .parent, .parent => .eq
  | .parent, .name _ => .lt
  | .parent, _ => .gt
  | .name a, .name b => Ord.compare a b
  | .name _, _ => .gt

def bytes : Part → List UInt8
  | .root => []
  | .current => [period]
  | .parent => [period, period]
  | .name n => n

end Part

def innerPart? (piece : List UInt8) : Option Part :=
  if piece = [] ∨ piece = [period] then none
  else if piece = [period, period] then some .parent
  else some (.name piece)

def relativeParts (bytes : List UInt8) : List Part :=
  (Text.splitOn separator bytes).filterMap innerPart?

def partsOf (bytes : List UInt8) : List Part :=
  match bytes with
  | separator :: rest => .root :: relativeParts rest
  | [period] => [.current]
  | period :: separator :: rest => .current :: relativeParts rest
  | _ => relativeParts bytes

@[simp] theorem partsOf_nil : partsOf [] = [] := rfl

@[simp] theorem partsOf_separator (rest : List UInt8) :
    partsOf (separator :: rest) = .root :: relativeParts rest := rfl

@[simp] theorem partsOf_period (rest : List UInt8) :
    partsOf (period :: separator :: rest) = .current :: relativeParts rest := rfl

def parts (p : Path) : List Part := partsOf p.bytes

/-- The same parts: different spellings of one path. -/
abbrev Same (p q : Path) : Prop := p.parts = q.parts

def compareParts : List Part → List Part → Ordering
  | [], [] => .eq
  | [], _ => .lt
  | _, [] => .gt
  | a :: as, b :: bs => (a.compare b).then (compareParts as bs)

def compare (p q : Path) : Ordering := compareParts p.parts q.parts

def spelled (parts : List Part) : List UInt8 := [separator].intercalate (parts.map Part.bytes)

def ofParts (parts : List Part) : Path :=
  match parts with
  | .root :: rest => ⟨separator :: spelled rest⟩
  | _ => ⟨spelled parts⟩

def isAbsolute (p : Path) : Bool :=
  match p.bytes with
  | separator :: _ => true
  | _ => false

/-- `p` with `rest` behind it; an absolute `rest` stands for itself. -/
def join (p rest : Path) : Path :=
  if rest.isAbsolute then rest
  else if p.bytes.isEmpty || p.bytes.getLast? = some separator then ⟨p.bytes ++ rest.bytes⟩
  else ⟨p.bytes ++ separator :: rest.bytes⟩

def child (p : Path) (name : FileName) : Path := p.join ⟨name⟩

/-- Everything before the last part; the root and the empty path have none. -/
def parent (p : Path) : Option Path :=
  match p.parts.reverse with
  | [] | .root :: _ => none
  | _ :: rest => some (ofParts rest.reverse)

def isUnder (p folder : Path) : Bool := folder.parts.isPrefixOf p.parts

def fileName (p : Path) : Option FileName :=
  match p.parts.getLast? with
  | some (.name n) => some n
  | _ => none

/-- A file name cut at its last dot. A dot in front does not count. -/
def splitExtension (name : FileName) : FileName × Option (List UInt8) :=
  match Text.splitFirst period name.reverse with
  | none => (name, none)
  | some (_, []) => (name, none)
  | some (after, before) => (before.reverse, some after.reverse)

def extension (p : Path) : Option (List UInt8) := p.fileName.bind fun n => (splitExtension n).2

/-- The path with another extension; a path without a file name stays as it is. -/
def withExtension (p : Path) (extension : List UInt8) : Path :=
  match p.fileName with
  | none => p
  | some n =>
      ofParts (p.parts.dropLast ++ [.name ((splitExtension n).1 ++ period :: extension)])

end Path

end LintReport
