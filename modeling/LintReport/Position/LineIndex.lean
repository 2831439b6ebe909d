import LintReport.Position
import LintReport.Text.Utf8

set_option autoImplicit false

/- From byte offsets to positions. An index records where the lines of a file
lie; only the bytes between a line start and an offset are decoded. A line feed,
a carriage return, and a carriage return with a line feed each end a line. -/
namespace LintReport

/-- The content of one line as a span of bytes, its terminator left out. -/
structure LineSpan where
  start : Nat
  stop : Nat
  deriving DecidableEq, Repr

/-- The lines of the bytes that follow offset `offset`, the first of which began
at `start`. -/
def LineSpan.scan : (offset start : Nat) → List UInt8 → List LineSpan
  | offset, start, [] => [⟨start, offset⟩]
  | offset, start, 13 :: 10 :: rest =>
      ⟨start, offset⟩ :: scan (offset + 2) (offset + 2) rest
  | offset, start, b :: rest =>
      if b = 13 ∨ b = 10 then ⟨start, offset⟩ :: scan (offset + 1) (offset + 1) rest
      else scan (offset + 1) start rest

structure LineIndex where
  content : List UInt8
  lines : List LineSpan
  deriving DecidableEq, Repr

namespace LineIndex

def ofContent (content : List UInt8) : LineIndex := ⟨content, LineSpan.scan 0 0 content⟩

def lineAt (index : LineIndex) (offset : Nat) : Nat :=
  (index.lines.takeWhile fun l => decide (l.start ≤ offset)).length - 1

def slice (index : LineIndex) (start stop : Nat) : List UInt8 :=
  (index.content.drop start).take (stop - start)

/-- The position of a byte offset. One past the end counts as the end, one inside
a terminator as the end of its line, and one inside a character counts the part
before it as a character. -/
def positionAt (index : LineIndex) (offset : Nat) : Position :=
  let inside := min offset index.content.length
  let number := index.lineAt inside
  match index.lines[number]? with
  | none => ⟨0, 0⟩
  | some line =>
      let before := index.slice line.start (min inside line.stop)
      ⟨number.toUInt32, (Utf8.decodeLossy before).length.toUInt32⟩

end LineIndex

end LintReport
