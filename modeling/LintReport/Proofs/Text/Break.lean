import Mathlib.Data.List.DropRight
import LintReport.Proofs.Position.Terminator
import LintReport.Proofs.Text.Utf8

set_option autoImplicit false

/- Line breaks of a text of characters, and the terminators that they are among the bytes
of the text. -/
namespace LintReport.Text

open Terminator (Apart)

def isBreak (c : Char) : Bool := c == '\r' || c == '\n'

theorem isBreak_iff (c : Char) : isBreak c = true ↔ c = '\r' ∨ c = '\n' := by
  simp [isBreak]

/-- How many line breaks a text has. A carriage return and a line feed behind it are one. -/
def lineBreaks : List Char → Nat
  | [] => 0
  | '\r' :: '\n' :: rest => lineBreaks rest + 1
  | c :: rest => if isBreak c then lineBreaks rest + 1 else lineBreaks rest

/-- The characters behind the last line break. -/
def lastLine (text : List Char) : List Char := text.rtakeWhile fun c => !isBreak c

/-- The characters up to the last line break, and that break. -/
def finishedLines (text : List Char) : List Char := text.rdropWhile fun c => !isBreak c

theorem finishedLines_append_lastLine (text : List Char) :
    finishedLines text ++ lastLine text = text := List.rdropWhile_append_rtakeWhile

theorem isBreak_of_mem_lastLine {text : List Char} {c : Char} (member : c ∈ lastLine text) :
    isBreak c = false := by
  simpa using List.mem_rtakeWhile_imp member

theorem isBreak_of_getLast?_finishedLines {text : List Char} {c : Char}
    (last : (finishedLines text).getLast? = some c) : isBreak c = true := by
  have nonempty : finishedLines text ≠ [] := by
    intro empty
    simp [empty] at last
  rw [List.getLast?_eq_some_getLast nonempty, Option.some.injEq] at last
  have breaks : ¬ (!isBreak ((finishedLines text).getLast nonempty)) = true :=
    List.rdropWhile_last_not _ _ nonempty
  rw [← last]
  simpa using breaks

/-- A text parts in front of its last line. -/
theorem apart_lastLine (text after : List Char) (apart : Apart '\r' '\n' text after) :
    Apart '\r' '\n' (finishedLines text) (lastLine text ++ after) := by
  intro cut
  obtain ⟨last, first⟩ := cut
  cases line : lastLine text with
  | nil =>
      have whole := finishedLines_append_lastLine text
      rw [line, List.append_nil] at whole
      rw [line, List.nil_append] at first
      exact apart ⟨whole ▸ last, first⟩
  | cons c rest =>
      rw [line, List.cons_append, List.head?_cons, Option.some.injEq] at first
      have inside : isBreak c = false := isBreak_of_mem_lastLine (line ▸ List.mem_cons_self)
      rw [first] at inside
      exact absurd inside (by decide)

/-! The bytes of line breaks. -/

open Utf8 (encode)

@[simp] theorem encode_cons (c : Char) (rest : List Char) :
    encode (c :: rest) = String.utf8EncodeChar c ++ encode rest := rfl

theorem eq_of_mem_encoded {c : Char} {b : UInt8} (member : b ∈ String.utf8EncodeChar c)
    (ends : b = 13 ∨ b = 10) : b = 13 ∧ c = '\r' ∨ b = 10 ∧ c = '\n' := by
  rcases ends with rfl | rfl
  · have value := (Utf8.eq_of_mem_utf8EncodeChar member (by decide)).2
    exact Or.inl ⟨rfl, Char.ext (UInt32.toNat_inj.mp value)⟩
  · have value := (Utf8.eq_of_mem_utf8EncodeChar member (by decide)).2
    exact Or.inr ⟨rfl, Char.ext (UInt32.toNat_inj.mp value)⟩

theorem plain_of_not_isBreak {c : Char} (inside : isBreak c = false) :
    ∀ b ∈ String.utf8EncodeChar c, ¬ (b = 13 ∨ b = 10) := by
  intro b member ends
  rcases eq_of_mem_encoded member ends with ⟨_, rfl⟩ | ⟨_, rfl⟩
  · exact absurd inside (by decide)
  · exact absurd inside (by decide)

theorem plain_encode {text : List Char} (inside : ∀ c ∈ text, isBreak c = false) :
    ∀ b ∈ encode text, ¬ (b = 13 ∨ b = 10) := by
  intro b member
  obtain ⟨c, inText, inChar⟩ := List.mem_flatMap.mp member
  exact plain_of_not_isBreak (inside c inText) b inChar

theorem getLast?_encode {text : List Char} (last : (encode text).getLast? = some 13) :
    text.getLast? = some '\r' := by
  rcases List.eq_nil_or_concat text with rfl | ⟨front, c, rfl⟩
  · simp [encode] at last
  · have bytes : (String.utf8EncodeChar c).getLast? = some 13 := by
      rw [List.concat_eq_append, Utf8.encode_append, List.getLast?_append] at last
      have nonempty : String.utf8EncodeChar c ≠ [] := String.utf8EncodeChar_ne_nil
      rw [encode_cons, encode, List.flatMap_nil, List.append_nil,
        List.getLast?_eq_some_getLast nonempty, Option.some_or] at last
      rw [List.getLast?_eq_some_getLast nonempty, last]
    have equal := eq_of_mem_encoded (List.mem_of_getLast? bytes) (Or.inl rfl)
    simpa using equal

theorem head?_encode {text : List Char} (first : (encode text).head? = some 10) :
    text.head? = some '\n' := by
  cases text with
  | nil => simp [encode] at first
  | cons c rest =>
      have bytes : (String.utf8EncodeChar c).head? = some 10 := by
        have nonempty : String.utf8EncodeChar c ≠ [] := String.utf8EncodeChar_ne_nil
        rw [encode_cons, List.head?_append, List.head?_eq_some_head nonempty,
          Option.some_or] at first
        rw [List.head?_eq_some_head nonempty, first]
      have equal := eq_of_mem_encoded (List.mem_of_mem_head? bytes) (Or.inr rfl)
      simpa using equal

theorem apart_encode {before after : List Char} (apart : Apart '\r' '\n' before after) :
    Apart 13 10 (encode before) (encode after) :=
  fun cut => apart ⟨getLast?_encode cut.1, head?_encode cut.2⟩

/-- The breaks of a text are the terminators of its bytes. -/
theorem length_scan_encode (offset : Nat) (text : List Char) :
    (Terminator.scan offset (encode text)).length = lineBreaks text := by
  fun_induction lineBreaks text generalizing offset with
  | case1 => rw [encode, List.flatMap_nil, Terminator.scan_nil, List.length_nil]
  | case2 rest ih =>
      have bytes : encode ('\r' :: '\n' :: rest) = 13 :: 10 :: encode rest := rfl
      rw [bytes, Terminator.scan_pair, List.length_cons, ih]
  | case3 c rest pair ends ih =>
      rcases (isBreak_iff c).mp ends with rfl | rfl
      · have bytes : encode ('\r' :: rest) = 13 :: encode rest := rfl
        have single : ¬ ((13 : UInt8) = 13 ∧ (encode rest).head? = some 10) := by
          intro both
          exact Terminator.single_of_not_pair pair ⟨rfl, head?_encode both.2⟩
        rw [bytes, Terminator.scan_cons _ _ _ single, if_pos (Or.inl rfl), List.length_cons, ih]
      · have bytes : encode ('\n' :: rest) = 10 :: encode rest := rfl
        have single : ¬ ((10 : UInt8) = 13 ∧ (encode rest).head? = some 10) := by
          intro both
          exact absurd both.1 (by decide)
        rw [bytes, Terminator.scan_cons _ _ _ single, if_pos (Or.inr rfl), List.length_cons, ih]
  | case4 c rest pair inside ih =>
      have inside' : isBreak c = false := by simpa using inside
      have plain := plain_of_not_isBreak inside'
      have apart : Apart 13 10 (String.utf8EncodeChar c) (encode rest) :=
        fun cut => plain 13 (List.mem_of_getLast? cut.1) (Or.inl rfl)
      rw [encode_cons, Terminator.scan_append _ _ _ apart, Terminator.scan_eq_nil _ _ plain,
        List.nil_append, ih]

theorem lineBreaks_append {front back : List Char} (apart : Apart '\r' '\n' front back) :
    lineBreaks (front ++ back) = lineBreaks front + lineBreaks back := by
  rw [← length_scan_encode 0, Utf8.encode_append, Terminator.scan_append _ _ _ (apart_encode apart),
    List.length_append, length_scan_encode, length_scan_encode]

theorem lineBreaks_eq_zero {text : List Char} (inside : ∀ c ∈ text, isBreak c = false) :
    lineBreaks text = 0 := by
  rw [← length_scan_encode 0, Terminator.scan_eq_nil _ _ (plain_encode inside), List.length_nil]

/-- The last terminator of a text ends where its last line begins. -/
theorem lastStop_scan_encode (text : List Char) :
    Terminator.lastStop 0 (Terminator.scan 0 (encode text)) =
      (encode (finishedLines text)).length := by
  have apart : Apart '\r' '\n' (finishedLines text) (lastLine text) := by
    have whole := apart_lastLine text [] (fun cut => by simp at cut)
    rwa [List.append_nil] at whole
  have plain := plain_encode fun c (member : c ∈ lastLine text) => isBreak_of_mem_lastLine member
  have scanned : Terminator.scan 0 (encode text) =
      Terminator.scan 0 (encode (finishedLines text)) := by
    conv_lhs => rw [← finishedLines_append_lastLine text, Utf8.encode_append,
      Terminator.scan_append _ _ _ (apart_encode apart), Terminator.scan_eq_nil _ _ plain,
      List.append_nil]
  rw [scanned]
  rcases List.eq_nil_or_concat (finishedLines text) with empty | ⟨front, c, equal⟩
  · rw [empty]
    rfl
  · have final : (finishedLines text).getLast? = some c := by simp [equal]
    have ends := isBreak_of_getLast?_finishedLines final
    have last : (encode (finishedLines text)).getLast? = some 13 ∨
        (encode (finishedLines text)).getLast? = some 10 := by
      rw [equal, List.concat_eq_append, Utf8.encode_append, List.getLast?_append]
      rcases (isBreak_iff c).mp ends with rfl | rfl
      · exact Or.inl rfl
      · exact Or.inr rfl
    rcases last with last | last
    · rw [Terminator.lastStop_scan _ _ _ _ last (Or.inl rfl), Nat.zero_add]
    · rw [Terminator.lastStop_scan _ _ _ _ last (Or.inr rfl), Nat.zero_add]

end LintReport.Text
