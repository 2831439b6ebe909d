import LintReport.Proofs.Position.LineIndex

set_option autoImplicit false

/- Positions in the order of their offsets. A later offset never has an earlier position, and each
position is one of the content: a line that is there, and no more characters than that line has. -/
namespace LintReport

namespace Position

theorem le_iff {p q : Position} : p ≤ q ↔ p.line.toNat < q.line.toNat ∨
    p.line.toNat = q.line.toNat ∧ p.character.toNat ≤ q.character.toNat := by
  change p.line < q.line ∨ p.line = q.line ∧ p.character ≤ q.character ↔ _
  rw [UInt32.lt_iff_toNat_lt, UInt32.le_iff_toNat_le, ← UInt32.toNat_inj]

end Position

/-- The lines of a content: what lies between its terminators. -/
def LineSpan.ofContent (content : List UInt8) : List LineSpan :=
  between 0 (Terminator.scan 0 content) content.length

/-- The bytes of a line up to an offset, or all of them if the line ends before it. -/
def LineSpan.upTo (line : LineSpan) (content : List UInt8) (offset : Nat) : List UInt8 :=
  (content.drop line.start).take (min offset line.stop - line.start)

/-- The bytes of a line. -/
def LineSpan.bytes (line : LineSpan) (content : List UInt8) : List UInt8 :=
  (content.drop line.start).take (line.stop - line.start)

/-- A position that a content has: that of a line, and of a character in it or behind its last. -/
def Position.IsIn (content : List UInt8) (p : Position) : Prop :=
  ∃ line, (LineSpan.ofContent content)[p.line.toNat]? = some line ∧
    p.character.toNat ≤ (Utf8.decodeLossy (line.bytes content)).length

namespace LineSpan

variable (line : LineSpan) (content : List UInt8)

theorem upTo_prefix_upTo {a b : Nat} (ordered : a ≤ b) :
    line.upTo content a <+: line.upTo content b := by
  apply List.take_prefix_take_left
  omega

theorem upTo_prefix_bytes (offset : Nat) : line.upTo content offset <+: line.bytes content := by
  apply List.take_prefix_take_left
  omega

end LineSpan

theorem Terminator.length_upTo_le {a b : Nat} (ordered : a ≤ b) (ts : List Terminator) :
    (upTo a ts).length ≤ (upTo b ts).length := by
  unfold upTo
  rw [← List.countP_eq_length_filter, ← List.countP_eq_length_filter]
  apply List.countP_mono_left
  intro t _ reached
  rw [decide_eq_true_eq] at reached ⊢
  omega

namespace LineIndex

variable (content : List UInt8)

/-- Line and character belong to one line of the content. -/
theorem exists_line_lineAndColumn (offset : Nat) :
    ∃ line, (LineSpan.ofContent content)[(lineAndColumn content offset).1]? = some line ∧
      (lineAndColumn content offset).2 =
        (Utf8.decodeLossy (line.upTo content (min offset content.length))).length := by
  have found := LineSpan.getElem?_between (min offset content.length) 0 content.length _
    (Terminator.scan_ascending 0 content)
  refine ⟨_, found, ?_⟩
  rw [LineSpan.upTo, min_firstStart _ _ _ (Nat.min_le_right _ _)]
  rfl

theorem lineAndColumn_mono {a b : Nat} (ordered : a ≤ b) :
    (lineAndColumn content a).1 < (lineAndColumn content b).1 ∨
      (lineAndColumn content a).1 = (lineAndColumn content b).1 ∧
        (lineAndColumn content a).2 ≤ (lineAndColumn content b).2 := by
  have inside : min a content.length ≤ min b content.length := by omega
  have lines : (lineAndColumn content a).1 ≤ (lineAndColumn content b).1 :=
    Terminator.length_upTo_le inside _
  by_cases same : (lineAndColumn content a).1 = (lineAndColumn content b).1
  · apply Or.inr
    obtain ⟨line, found, column⟩ := exists_line_lineAndColumn content a
    obtain ⟨line', found', column'⟩ := exists_line_lineAndColumn content b
    rw [← same, found, Option.some_inj] at found'
    rw [column, column', ← found']
    exact ⟨same, Utf8.length_decodeLossy_le_of_prefix (line.upTo_prefix_upTo content inside)⟩
  · apply Or.inl
    omega

variable {content} (short : content.length < 2 ^ 32)
include short

theorem positionAt_mono {a b : Nat} (ordered : a ≤ b) :
    (ofContent content).positionAt a ≤ (ofContent content).positionAt b := by
  have first := coordinates_positionAt content a short
  have second := coordinates_positionAt content b short
  have mono := lineAndColumn_mono content ordered
  rw [← first, ← second] at mono
  exact Position.le_iff.mpr mono

theorem isIn_positionAt (offset : Nat) : ((ofContent content).positionAt offset).IsIn content := by
  obtain ⟨line, found, column⟩ := exists_line_lineAndColumn content offset
  have place := coordinates_positionAt content offset short
  rw [← place] at found column
  refine ⟨line, found, ?_⟩
  have bounded := Utf8.length_decodeLossy_le_of_prefix
    (line.upTo_prefix_bytes content (min offset content.length))
  rw [← column] at bounded
  exact bounded

end LineIndex

end LintReport
