import LintReport.Proofs.Document.Cache
import LintReport.Proofs.Position.Cursor
import LintReport.Report

set_option autoImplicit false

/- The edit that a replacement stands for. Applied by line and character it does what the
replacement says in bytes. -/
namespace LintReport

/-- A text after an edit; `none` where the text has no such line or character. -/
def TextEdit.applied? (e : TextEdit) (text : List Char) : Option (List Char) := do
  let (front, _) ← Text.cut? e.range.start.line.toNat e.range.start.character.toNat text
  let (_, back) ← Text.cut? e.range.stop.line.toNat e.range.stop.character.toNat text
  some (front ++ e.newText.toList ++ back)

namespace IsCursor

variable {text : List Char} {offset : Nat}

theorem le_length (cursor : IsCursor text offset) : offset ≤ (Utf8.encode text).length := by
  obtain ⟨before, after, rfl, rfl, _⟩ := cursor
  rw [Utf8.encode_append, List.length_append]
  omega

/-- Cutting at the position of a cursor cuts the bytes at its offset. -/
theorem cut?_positionAt (cursor : IsCursor text offset)
    (short : (Utf8.encode text).length < 2 ^ 32) :
    let p := (LineIndex.ofContent (Utf8.encode text)).positionAt offset
    ∃ before after, Text.cut? p.line.toNat p.character.toNat text = some (before, after) ∧
      Utf8.encode before = (Utf8.encode text).take offset ∧
      Utf8.encode after = (Utf8.encode text).drop offset := by
  obtain ⟨before, after, parts, rfl, apart⟩ := cursor
  refine ⟨before, after, LineIndex.cut?_positionAt parts apart short, ?_, ?_⟩
  · rw [parts, Utf8.encode_append, List.take_left]
  · rw [parts, Utf8.encode_append, List.drop_left]

theorem positionAt_injective {other : Nat} (cursor : IsCursor text offset)
    (cursor' : IsCursor text other) (short : (Utf8.encode text).length < 2 ^ 32)
    (equal : (LineIndex.ofContent (Utf8.encode text)).positionAt offset =
      (LineIndex.ofContent (Utf8.encode text)).positionAt other) : offset = other := by
  obtain ⟨before, after, cut, front, _⟩ := cursor.cut?_positionAt short
  obtain ⟨before', after', cut', front', _⟩ := cursor'.cut?_positionAt short
  rw [equal, cut', Option.some_inj, Prod.mk.injEq] at cut
  rw [cut.1, front] at front'
  have lengths := congrArg List.length front'
  rw [List.length_take_of_le cursor.le_length, List.length_take_of_le cursor'.le_length] at lengths
  exact lengths

end IsCursor

/-- An edit between two cursors puts its text in the place of the bytes between them. -/
theorem TextEdit.applied?_between {text : List Char} {start stop : Nat}
    (first : IsCursor text start) (last : IsCursor text stop)
    (short : (Utf8.encode text).length < 2 ^ 32) (newText : String) :
    let index := LineIndex.ofContent (Utf8.encode text)
    (applied? ⟨⟨index.positionAt start, index.positionAt stop⟩, newText⟩ text).map Utf8.encode =
      some ((Utf8.encode text).take start ++ Utf8.encode newText.toList ++
        (Utf8.encode text).drop stop) := by
  obtain ⟨front, _, cut, bytes, _⟩ := first.cut?_positionAt short
  obtain ⟨_, back, cut', _, bytes'⟩ := last.cut?_positionAt short
  simp only [applied?, cut, cut', Option.bind_eq_bind, Option.bind_some, Option.map_some,
    Utf8.encode_append, bytes, bytes']

namespace Report

/-- A replacement in a file that was found has the range of its bytes. -/
theorem range_addRange {policy : PathPolicy} {disk : Disk} {cache : DocumentCache}
    {raw : RawReplacement} {d : Document}
    (found : (cache.load disk (policy.absolutize raw.filePath)).1 = some d) :
    (addRange policy disk cache raw).1.edit? =
      some ⟨⟨d.positionAt raw.offset.toNat,
        d.positionAt (min (raw.offset.toNat + raw.length.toNat) Replacement.maxOffset)⟩,
        raw.text⟩ := by
  unfold addRange
  dsimp only
  split
  · next missing =>
      rw [missing] at found
      simp at found
  · next d' cache' known =>
      rw [known, Option.some_inj] at found
      simp only [Replacement.edit?, Option.map_some, Replacement.toNat_endOffset, found]

/-- The edit made for a replacement does what the replacement says, if that begins and ends
where a cursor can stand. No two of these places share a position. -/
theorem applied?_addRange {policy : PathPolicy} {disk : Disk} {cache : DocumentCache}
    {raw : RawReplacement} {d : Document} {text : List Char}
    (found : (cache.load disk (policy.absolutize raw.filePath)).1 = some d)
    (content : d.content = Utf8.encode text) (short : d.content.length < 2 ^ 32)
    (first : IsCursor text raw.offset.toNat)
    (last : IsCursor text (raw.offset.toNat + raw.length.toNat)) :
    (∃ e, (addRange policy disk cache raw).1.edit? = some e ∧
      e = ⟨⟨d.positionAt raw.offset.toNat, d.positionAt (raw.offset.toNat + raw.length.toNat)⟩,
        raw.text⟩ ∧
      (e.applied? text).map Utf8.encode =
        some (d.content.take raw.offset.toNat ++ Utf8.encode raw.text.toList ++
          d.content.drop (raw.offset.toNat + raw.length.toNat))) ∧
    ∀ a b, IsCursor text a → IsCursor text b → d.positionAt a = d.positionAt b → a = b := by
  unfold Document.positionAt
  have edit := range_addRange found
  rw [content] at short ⊢
  have inside := last.le_length
  have unbounded : min (raw.offset.toNat + raw.length.toNat) Replacement.maxOffset =
      raw.offset.toNat + raw.length.toNat := by
    unfold Replacement.maxOffset
    rw [UInt64.size]
    omega
  rw [unbounded, Document.positionAt, Document.positionAt, content] at edit
  refine ⟨⟨_, edit, rfl, TextEdit.applied?_between first last short raw.text⟩, ?_⟩
  intro a b cursor cursor' equal
  exact cursor.positionAt_injective cursor' short equal

/-- In `é`, a pair and `b`: `x` for the pair and the character in front of it. -/
theorem applied?_addRange_pair :
    let text := "é\r\nb".toList
    let d := Document.ofContent ⟨"a.c"⟩ "c" 1 (Utf8.encode text)
    let policy : PathPolicy := ⟨[], false, [], d.path⟩
    let disk : Disk := ⟨.directory [], ⟨"/"⟩⟩
    let result := (addRange policy disk (DocumentCache.ofPrimary d) ⟨"", 0, 4, "x"⟩).1
    ∃ e, result.edit? = some e ∧
      (e.applied? text).map Utf8.encode = some (Utf8.encode "xb".toList) := by
  intro text d policy disk _
  have found : ((DocumentCache.ofPrimary d).load disk (policy.absolutize "")).1 = some d := by
    have loaded := (DocumentCache.faithful_ofPrimary d disk).load_of_isNormal
      (Document.isNormal_ofContent ⟨"a.c"⟩ "c" 1 (Utf8.encode text))
    rw [Document.fetch?, if_pos rfl] at loaded
    exact loaded
  have first : IsCursor text 0 := ⟨[], text, rfl, rfl, by decide⟩
  have last : IsCursor text 4 := ⟨"é\r\n".toList, ['b'], by decide, by decide, by decide⟩
  obtain ⟨⟨e, edit, _, done⟩, _⟩ :=
    @applied?_addRange policy disk _ ⟨"", 0, 4, "x"⟩ d text found rfl (by decide) first last
  exact ⟨e, edit, done.trans (by decide)⟩

end Report

end LintReport
