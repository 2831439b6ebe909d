import LintReport.Path.Map
import LintReport.Position

set_option autoImplicit false

/- Suggested substitutions of bytes in a file, and the edits they stand for. -/
namespace LintReport

/-- Put `text` in the place of the `length` bytes at `offset` of `file`. The range
is there only when the content of that same file was known. -/
structure Replacement where
  file : Path
  offset : UInt64
  length : UInt64
  text : String
  range : Option Range
  deriving DecidableEq, Repr

structure TextEdit where
  range : Range
  newText : String
  deriving DecidableEq, Repr

namespace Replacement

def maxOffset : Nat := UInt64.size - 1

/-- The offset behind the replaced bytes, at most the largest one. -/
def endOffset (r : Replacement) : UInt64 :=
  UInt64.ofNat (min (r.offset.toNat + r.length.toNat) maxOffset)

theorem toNat_endOffset (r : Replacement) :
    r.endOffset.toNat = min (r.offset.toNat + r.length.toNat) maxOffset := by
  unfold endOffset maxOffset
  rw [UInt64.toNat_ofNat_of_lt']
  simp only [UInt64.size]
  omega

def edit? (r : Replacement) : Option TextEdit := r.range.map fun range => ⟨range, r.text⟩

end Replacement

/-- The edits for each file, in the order of the replacements. A replacement
without a range cannot be applied and is left out. -/
def editsByFile (rs : List Replacement) : PathMap (List TextEdit) :=
  rs.foldl (fun edits r =>
    match r.edit? with
    | some e => edits.upsert r.file fun old => old.getD [] ++ [e]
    | none => edits) PathMap.empty

end LintReport
