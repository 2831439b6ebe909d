import LintReport.Proofs.Output.Header
import LintReport.Proofs.Position.Cursor
import LintReport.Proofs.Report.Collate

set_option autoImplicit false

/- Two ways to one place. A compiler prints a line and a column that it counts in bytes, an exported
finding has an offset. Both passes find the same line. An error keeps the count of bytes, a warning
counts characters, so the two agree where all characters in front of them on their line have one
byte, and nowhere else. -/
namespace LintReport

open Terminator (Apart)
open Text (lineBreaks lastLine)
open Utf8 (encode)

/-! Bytes and characters. -/

theorem Utf8.length_le_length_encode (text : List Char) : text.length ≤ (encode text).length := by
  induction text with
  | nil => exact Nat.le_refl 0
  | cons c text ih =>
      have bytes := c.utf8Size_pos
      rw [Text.encode_cons, List.length_append, String.length_utf8EncodeChar, List.length_cons]
      omega

theorem Utf8.length_encode_eq_length_iff (text : List Char) :
    (encode text).length = text.length ↔ ∀ c ∈ text, c.utf8Size = 1 := by
  induction text with
  | nil => simp [encode]
  | cons c text ih =>
      have bytes := c.utf8Size_pos
      have rest := Utf8.length_le_length_encode text
      rw [Text.encode_cons, List.length_append, String.length_utf8EncodeChar, List.length_cons,
        List.forall_mem_cons, ← ih]
      omega

/-! The place of an error. -/

namespace CompilerMessage

/-- A line prints the place that its message has, one-based. -/
theorem position_of_firstLocation {line path rest : List Char} {row column : UInt32}
    {message : CompilerMessage} (read : ofHeader? line = some message)
    (first : FirstLocation line path row column rest) :
    message.position = Position.ofOneBased row column := by
  rw [ofHeader?_eq_bind, splitLocation_eq_some_iff.mpr first, Option.bind_some,
    behind?_eq_some_iff] at read
  obtain ⟨_, _, _, _, _, rfl⟩ := read
  rfl

end CompilerMessage

theorem Position.coordinates_ofOneBased (row column : UInt32) :
    (ofOneBased row column).coordinates = (row.toNat - 1, column.toNat - 1) := by
  rw [coordinates, ofOneBased, toNat_predecessor, toNat_predecessor]

/-! The place of a warning. -/

/-- At a cursor a position counts line breaks and characters, when both numbers fit. -/
theorem coordinates_positionIn {before after : List Char} (apart : Apart '\r' '\n' before after)
    (rows : lineBreaks before < 2 ^ 32) (columns : (lastLine before).length < 2 ^ 32) :
    (positionIn (encode (before ++ after)) (encode before).length).coordinates =
      (lineBreaks before, (lastLine before).length) := by
  rw [positionIn, LineIndex.positionAt_eq, LineIndex.lineAndColumn_encode apart,
    Position.coordinates, Prod.mk.injEq]
  exact ⟨Nat.mod_eq_of_lt rows, Nat.mod_eq_of_lt columns⟩

theorem Position.coordinates_inj {a b : Position} : a.coordinates = b.coordinates ↔ a = b := by
  rw [coordinates, coordinates, Prod.mk.injEq, UInt32.toNat_inj, UInt32.toNat_inj,
    Position.mk.injEq]

namespace Report

/-- A message about the file at `p` in the output of a run, with the row and the column that its
line prints. -/
structure PrintsError (policy : PathPolicy) (output : List Char) (p : Path) (row column : UInt32)
    (message : CompilerMessage) : Prop where
  kept : message ∈ CompilerMessage.errors output
  about : policy.resolve? message.path = some p
  printed : ∃ line ∈ Text.lines output, CompilerMessage.ofHeader? line = some message ∧
    ∃ path rest, CompilerMessage.FirstLocation line path row column rest

/-- A finding about the file at `p` in the output of a run, at an offset. -/
structure ExportsFinding (policy : PathPolicy) (output : List Char) (p : Path) (offset : Nat)
    (f : Finding) : Prop where
  listed : f ∈ Finding.scan output
  kept : Severity.classify f.rule ≠ .error
  about : policy.resolve? f.filePath = some p
  offset : f.fileOffset.toNat = offset

variable (profile : Profile) (disk : Disk) {document : Document}

theorem errorDiagnostic_mem_collate (normal : document.path.IsNormal) {output : List Char}
    {row column : UInt32} {message : CompilerMessage}
    (printed : PrintsError (.ofProfile profile document.path) output document.path row column
      message) :
    errorDiagnostic message ∈
      ((collate profile disk document output).get? document.path).getD [] := by
  rw [getD_get?_collate disk profile normal output normal]
  apply List.mem_append_left
  apply List.mem_map_of_mem
  exact List.mem_filter.mpr ⟨printed.kept, decide_eq_true printed.about⟩

theorem warningAnew_mem_collate (normal : document.path.IsNormal) {output : List Char}
    {offset : Nat} {f : Finding}
    (exported : ExportsFinding (.ofProfile profile document.path) output document.path offset f) :
    warningAnew (.ofProfile profile document.path) disk document document.path f ∈
      ((collate profile disk document output).get? document.path).getD [] := by
  rw [getD_get?_collate disk profile normal output normal]
  apply List.mem_append_right
  apply List.mem_map_of_mem
  exact List.mem_filter.mpr ⟨exported.listed, decide_eq_true ⟨exported.kept, exported.about⟩⟩

/-- An error and a finding at one place of the document, the one printed with its row and its
column in bytes, the other exported with its offset. The report has them on the same line, the
error as many bytes and the warning as many characters from its start. So both have the same
position when all these characters have one byte each, and only then. -/
theorem collate_columns (path : Path) (language : String) (version : Int) (output : List Char)
    (before after : List Char) (apart : Apart '\r' '\n' before after) :
    let document := Document.ofContent path language version (encode (before ++ after))
    let policy := PathPolicy.ofProfile profile document.path
    let listed := ((collate profile disk document output).get? document.path).getD []
    ∀ (row column : UInt32) (message : CompilerMessage) (f : Finding),
      row.toNat = lineBreaks before + 1 → column.toNat = (encode (lastLine before)).length + 1 →
      PrintsError policy output document.path row column message →
      ExportsFinding policy output document.path (encode before).length f →
      ∃ error ∈ listed, ∃ warning ∈ listed, ∃ e w,
        error.severity = .error ∧ error.message = message.message ∧ error.range = Range.point e ∧
        warning.severity = .warning ∧ warning.message = findingMessage f ∧
        warning.range = Range.point w ∧
        e.coordinates = (lineBreaks before, (encode (lastLine before)).length) ∧
        w.coordinates = (lineBreaks before, (lastLine before).length) ∧
        (e = w ↔ ∀ c ∈ lastLine before, c.utf8Size = 1) := by
  intro document policy listed row column message f rows columns printed exported
  have normal : document.path.IsNormal := Document.isNormal_ofContent ..
  obtain ⟨line, _, read, path', rest, first⟩ := printed.printed
  have place := CompilerMessage.position_of_firstLocation read first
  have shorter := Utf8.length_le_length_encode (lastLine before)
  have rowBound := row.toNat_lt
  have columnBound := column.toNat_lt
  have here : message.position.coordinates =
      (lineBreaks before, (encode (lastLine before)).length) := by
    rw [place, Position.coordinates_ofOneBased, rows, columns, Nat.add_sub_cancel,
      Nat.add_sub_cancel]
  have there := coordinates_positionIn apart (by omega) (by omega)
  refine ⟨_, errorDiagnostic_mem_collate profile disk normal printed, _,
    warningAnew_mem_collate profile disk normal exported, message.position,
    positionIn document.content f.fileOffset.toNat, rfl, rfl, rfl, rfl, rfl, ?_, here, ?_, ?_⟩
  · rw [(placed_warningAnew disk document.path f).range, Document.contentAt?, if_pos rfl,
      Option.getD_some]
  · rw [exported.offset]
    exact there
  · rw [exported.offset, ← Utf8.length_encode_eq_length_iff, ← Position.coordinates_inj, here]
    show _ = (positionIn (encode (before ++ after)) (encode before).length).coordinates ↔ _
    rw [there, Prod.mk.injEq]
    exact and_iff_right rfl

/-- A line of single bytes, below one with a wide character: both stand at its third character. -/
theorem collate_columns_narrow :
    let before := "é;\r\na ".toList
    let disk : Disk := ⟨.directory [], ⟨"/"⟩⟩
    let profile := Profile.ofConfiguration disk .default []
    let document := Document.ofContent ⟨"/a.c"⟩ "c" 0 (encode (before ++ ['b']))
    let policy := PathPolicy.ofProfile profile document.path
    let output := ["a.c:2:3: error: x", "a b", "  ^", "---", "Diagnostics:",
      " - DiagnosticName: r", "   Message: y", "   FilePath: a.c", "   FileOffset: 7",
      "..."].flatMap fun line => line.toList ++ ['\n']
    let message : CompilerMessage := ⟨"a.c", ⟨1, 2⟩, "error", "x"⟩
    let f : Finding := ⟨"r", "y", 7, "a.c", []⟩
    let listed := ((collate profile disk document output).get? document.path).getD []
    Apart '\r' '\n' before ['b'] ∧ PrintsError policy output document.path 2 3 message ∧
      ExportsFinding policy output document.path (encode before).length f ∧
      ∃ error ∈ listed, ∃ warning ∈ listed,
        error.severity = .error ∧ warning.severity = .warning ∧ error.range = warning.range := by
  intro before disk profile document policy output message f listed
  have apart : Apart '\r' '\n' before ['b'] := by decide
  have line : "a.c:2:3: error: x".toList ∈ Text.lines output := by decide +kernel
  have read : CompilerMessage.ofHeader? "a.c:2:3: error: x".toList = some message := by
    decide +kernel
  have cut : CompilerMessage.splitLocation "a.c:2:3: error: x".toList =
      some ("a.c".toList, (2, 3), "error: x".toList) := by decide +kernel
  have first := CompilerMessage.splitLocation_eq_some_iff.mp cut
  have printed : PrintsError policy output document.path 2 3 message :=
    ⟨by decide +kernel, by decide +kernel, _, line, read, _, _, first⟩
  have exported : ExportsFinding policy output document.path (encode before).length f :=
    ⟨by decide +kernel, by decide +kernel, by decide +kernel, by decide +kernel⟩
  obtain ⟨error, inError, warning, inWarning, e, w, isError, _, atE, isWarning, _, atW, _, _, same⟩ :=
    collate_columns profile disk ⟨"/a.c"⟩ "c" 0 output before ['b'] apart 2 3 message f
      (by decide +kernel) (by decide +kernel) printed exported
  have last : lastLine before = ['a', ' '] := by decide +kernel
  have equal : e = w := same.mpr (by rw [last]; simp [Char.utf8Size])
  exact ⟨apart, printed, exported, error, inError, warning, inWarning, isError, isWarning,
    by rw [atE, atW, equal]⟩

/-- Behind a wide character, at the offset 2 and the column 3 in bytes: the error stands one
character further than the warning. -/
theorem collate_columns_wide :
    let document := Document.ofContent ⟨"/a.c"⟩ "c" 0 (encode ("é".toList ++ "=1;".toList))
    let disk : Disk := ⟨.directory [], ⟨"/"⟩⟩
    let profile := Profile.ofConfiguration disk .default []
    let output := ["a.c:1:3: error: x", "é=1;", "  ^", "---", "Diagnostics:",
      " - DiagnosticName: r", "   Message: y", "   FilePath: a.c", "   FileOffset: 2",
      "..."].flatMap fun line => line.toList ++ ['\n']
    let listed := ((collate profile disk document output).get? document.path).getD []
    Apart '\r' '\n' "é".toList "=1;".toList ∧ (encode "é".toList).length = 2 ∧
      (CompilerMessage.splitLocation "a.c:1:3: error: x".toList).map (fun cut => cut.2.1) =
        some (1, 3) ∧
      (Finding.scan output).map Finding.fileOffset = [2] ∧
      listed.map (fun d => (d.severity, d.range)) =
        [(.error, Range.point ⟨0, 2⟩), (.warning, Range.point ⟨0, 1⟩)] := by
  refine ⟨by decide, ?_⟩
  decide +kernel

end Report

end LintReport
