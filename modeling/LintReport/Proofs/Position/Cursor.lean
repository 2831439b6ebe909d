import LintReport.Proofs.Position.LineIndex
import LintReport.Proofs.Text.Break

set_option autoImplicit false

/- Places where a cursor can stand in a text: between two characters, and not within a
terminator. There the position of an offset is the number of line breaks in front of it and
of characters behind the last of them, and cutting the text at that line and character
leads back to the offset. -/
namespace LintReport

open Terminator (Apart)
open Text (isBreak lineBreaks lastLine finishedLines)

/-- The byte offset of a place for a cursor. -/
def IsCursor (text : List Char) (offset : Nat) : Prop :=
  ∃ before after, text = before ++ after ∧ offset = (Utf8.encode before).length ∧
    Apart '\r' '\n' before after

namespace LineIndex

theorem lineAndColumn_encode {before after : List Char} (apart : Apart '\r' '\n' before after) :
    lineAndColumn (Utf8.encode (before ++ after)) (Utf8.encode before).length =
      (lineBreaks before, (lastLine before).length) := by
  have line : (Utf8.encode before).drop (Utf8.encode (finishedLines before)).length =
      Utf8.encode (lastLine before) := by
    have bytes := Utf8.encode_append (finishedLines before) (lastLine before)
    rw [Text.finishedLines_append_lastLine] at bytes
    rw [bytes, List.drop_left]
  rw [Utf8.encode_append, lineAndColumn_append _ _ (Text.apart_encode apart),
    Text.length_scan_encode, Text.lastStop_scan_encode, line, Utf8.decodeLossy_encode]

end LineIndex

namespace Text

/-- The first `count` lines of a text with their breaks, and what follows them. -/
def skipLines : (count : Nat) → List Char → Option (List Char × List Char)
  | 0, text => some ([], text)
  | _ + 1, [] => none
  | count + 1, '\r' :: '\n' :: rest =>
      (skipLines count rest).map fun p => ('\r' :: '\n' :: p.1, p.2)
  | count + 1, c :: rest =>
      (skipLines (if isBreak c then count else count + 1) rest).map fun p => (c :: p.1, p.2)

/-- A text cut at a line and a character of it; `none` where the text has no such line or
the line no such character. -/
def cut? (line character : Nat) (text : List Char) : Option (List Char × List Char) := do
  let (front, rest) ← skipLines line text
  if character ≤ (rest.takeWhile fun c => !isBreak c).length then
    some (front ++ rest.take character, rest.drop character)
  else none

theorem skipLines_cons (count : Nat) (c : Char) (rest : List Char)
    (single : ¬ (c = '\r' ∧ rest.head? = some '\n')) :
    skipLines (count + 1) (c :: rest) =
      (skipLines (if isBreak c then count else count + 1) rest).map fun p => (c :: p.1, p.2) := by
  rw [skipLines]
  intro rest' first second
  apply single
  rw [second]
  exact ⟨first, rfl⟩

theorem lineBreaks_ne_zero {text : List Char} {c : Char} (last : text.getLast? = some c)
    (ends : isBreak c = true) : lineBreaks text ≠ 0 := by
  fun_induction lineBreaks text with
  | case1 => simp at last
  | case2 rest ih => omega
  | case3 c' rest _ _ ih => omega
  | case4 c' rest _ inside ih =>
      cases rest with
      | nil =>
          simp only [List.getLast?_singleton, Option.some.injEq] at last
          exact absurd (last ▸ ends) inside
      | cons d rest => exact ih last

theorem getLast?_tail {c : Char} {rest : List Char}
    (whole : ∀ d, (c :: rest).getLast? = some d → isBreak d = true) :
    ∀ d, rest.getLast? = some d → isBreak d = true := by
  intro d last
  apply whole
  rw [List.getLast?_cons, last, Option.getD_some]

/-- Whole lines in front of a text are skipped by their number. -/
theorem skipLines_append (front back : List Char) (apart : Apart '\r' '\n' front back)
    (whole : ∀ d, front.getLast? = some d → isBreak d = true) :
    skipLines (lineBreaks front) (front ++ back) = some (front, back) := by
  fun_induction lineBreaks front with
  | case1 => rw [skipLines, List.nil_append]
  | case2 rest ih =>
      have later := ih apart.tail.tail (getLast?_tail (getLast?_tail whole))
      rw [List.cons_append, List.cons_append, skipLines, later, Option.map_some]
  | case3 c rest pair ends ih =>
      have single := apart.head (Terminator.single_of_not_pair pair)
      have later := ih apart.tail (getLast?_tail whole)
      rw [List.cons_append, skipLines_cons _ _ _ single, if_pos ends, later, Option.map_some]
  | case4 c rest pair inside ih =>
      have later := ih apart.tail (getLast?_tail whole)
      have single : ¬ (c = '\r' ∧ (rest ++ back).head? = some '\n') := by
        intro both
        rw [both.1] at inside
        exact inside rfl
      -- The text ends in a break, so there is one behind a character that is none.
      have some : lineBreaks rest ≠ 0 := by
        cases last : rest.getLast? with
        | none =>
            rw [List.getLast?_eq_none_iff.mp last] at whole
            exact absurd (whole c rfl) inside
        | some d => exact lineBreaks_ne_zero last (getLast?_tail whole d last)
      obtain ⟨count, equal⟩ := Nat.exists_eq_succ_of_ne_zero some
      rw [equal] at later ⊢
      rw [List.cons_append, skipLines_cons _ _ _ single, if_neg inside, later, Option.map_some]

theorem lineBreaks_finishedLines (text : List Char) :
    lineBreaks (finishedLines text) = lineBreaks text := by
  have apart := apart_lastLine text [] (fun cut => by simp at cut)
  rw [List.append_nil] at apart
  have last := lineBreaks_eq_zero fun c (member : c ∈ lastLine text) =>
    isBreak_of_mem_lastLine member
  have whole := lineBreaks_append apart
  rw [finishedLines_append_lastLine, last, Nat.add_zero] at whole
  exact whole.symm

/-- Cutting at the line and character of a cursor cuts at the cursor. -/
theorem cut?_append (before after : List Char) (apart : Apart '\r' '\n' before after) :
    cut? (lineBreaks before) (lastLine before).length (before ++ after) = some (before, after) := by
  have text : before ++ after = finishedLines before ++ (lastLine before ++ after) := by
    rw [← List.append_assoc, finishedLines_append_lastLine]
  have skipped := skipLines_append (finishedLines before) (lastLine before ++ after)
    (apart_lastLine before after apart) fun d last => isBreak_of_getLast?_finishedLines last
  have inLine : (lastLine before).length ≤
      ((lastLine before ++ after).takeWhile fun c => !isBreak c).length := by
    rw [List.takeWhile_append_of_pos (fun c member => by simp [isBreak_of_mem_lastLine member]),
      List.length_append]
    omega
  rw [lineBreaks_finishedLines, ← text] at skipped
  simp only [cut?, skipped, Option.bind_eq_bind, Option.bind_some, inLine, if_true,
    List.take_left, List.drop_left, finishedLines_append_lastLine]

end Text

namespace LineIndex

/-- Cutting a text at the position of a cursor cuts it at the cursor. -/
theorem cut?_positionAt {text before after : List Char} (parts : text = before ++ after)
    (apart : Apart '\r' '\n' before after) (short : (Utf8.encode text).length < 2 ^ 32) :
    let p := (ofContent (Utf8.encode text)).positionAt (Utf8.encode before).length
    Text.cut? p.line.toNat p.character.toNat text = some (before, after) := by
  have place := lineAndColumn_encode apart
  rw [← parts, ← coordinates_positionAt _ _ short, Position.coordinates, Prod.mk.injEq] at place
  dsimp only
  rw [place.1, place.2, parts]
  exact Text.cut?_append before after apart

/-- The position of an offset is what counting terminators finds in any bytes. In a text,
where a cursor can stand, it is the number of line breaks in front of it and of characters
behind the last of them. -/
theorem positionAt_counts (content : List UInt8) (offset : Nat)
    (short : content.length < 2 ^ 32) :
    ((ofContent content).positionAt offset).coordinates = lineAndColumn content offset ∧
      ∀ before after, content = Utf8.encode (before ++ after) →
        offset = (Utf8.encode before).length → Apart '\r' '\n' before after →
        ((ofContent content).positionAt offset).coordinates =
          (lineBreaks before, (lastLine before).length) := by
  rw [coordinates_positionAt content offset short]
  refine ⟨rfl, ?_⟩
  intro before after text place apart
  rw [text, place]
  exact lineAndColumn_encode apart

/-- Behind `é`, a pair and `a`; and within the pair, which is the end of its line. -/
theorem positionAt_counts_pair :
    let content : List UInt8 := [0xC3, 0xA9, 13, 10, 97, 98]
    ((ofContent content).positionAt 5).coordinates = (1, 1) ∧
      ((ofContent content).positionAt 3).coordinates = lineAndColumn content 3 :=
  ⟨(positionAt_counts [0xC3, 0xA9, 13, 10, 97, 98] 5 (by decide)).2 "é\r\na".toList ['b']
      (by decide) (by decide) (by decide),
    (positionAt_counts [0xC3, 0xA9, 13, 10, 97, 98] 3 (by decide)).1⟩

end LineIndex

end LintReport
