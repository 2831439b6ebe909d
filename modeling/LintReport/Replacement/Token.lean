import LintReport.Json.Fields
import LintReport.Json.Parse
import LintReport.Replacement

set_option autoImplicit false

/- Replacements as one text that a diagnostic carries along: a compact JSON array
of records, in which the range is left out when there is none. -/
namespace LintReport

namespace Position

def toJson (p : Position) : Json :=
  .record [("line", .natural p.line.toNat), ("character", .natural p.character.toNat)]

def ofJson? (j : Json) : Option Position := do
  let f ← j.fields? ["line", "character"]
  let line ← (← f.get 0).asNatural? UInt32.size
  let character ← (← f.get 1).asNatural? UInt32.size
  some ⟨line.toUInt32, character.toUInt32⟩

end Position

namespace Range

def toJson (r : Range) : Json :=
  .record [("start", r.start.toJson), ("end", r.stop.toJson)]

def ofJson? (j : Json) : Option Range := do
  let f ← j.fields? ["start", "end"]
  let start ← Position.ofJson? (← f.get 0)
  let stop ← Position.ofJson? (← f.get 1)
  some ⟨start, stop⟩

end Range

def TextEdit.toJson (e : TextEdit) : Json :=
  .record [("range", e.range.toJson), ("newText", .text e.newText)]

namespace Replacement

def record (path : String) (r : Replacement) : Json :=
  .record ([("FilePath", .text path), ("Offset", .natural r.offset.toNat),
    ("Length", .natural r.length.toNat), ("ReplacementText", .text r.text)] ++
    (r.range.map fun range => ("Range", range.toJson)).toList)

/-- A replacement as a record; `none` when its path is not UTF-8. -/
def toJson? (r : Replacement) : Option Json := r.file.text?.map fun path => record path r

def rangeOf? : Option Json → Option (Option Range)
  | none | some .null => some none
  | some j => (Range.ofJson? j).map some

def ofJson? (j : Json) : Option Replacement := do
  let f ← j.fields? ["FilePath", "Offset", "Length", "ReplacementText", "Range"]
  let file ← (← f.get 0).asText?
  let offset ← (← f.get 1).asNatural? UInt64.size
  let length ← (← f.get 2).asNatural? UInt64.size
  let text ← (← f.get 3).asText?
  let range ← rangeOf? (f.get 4)
  some ⟨⟨file⟩, offset.toUInt64, length.toUInt64, text, range⟩

/-- All replacements as one text. When one of them cannot be written, none is. -/
def encode (rs : List Replacement) : String :=
  match rs.mapM toJson? with
  | some items => (Json.array items).compact
  | none => "[]"

/-- The replacements that a text written by `encode` stands for. -/
def decode? (token : String) : Option (List Replacement) := do
  let j ← Json.parse? token.toList
  (← j.asArray?).mapM ofJson?

end Replacement

end LintReport
