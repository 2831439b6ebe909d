import LintReport.Output.Message
import LintReport.Proofs.Output.Delimited
import Mathlib.Data.List.Induction

set_option autoImplicit false

/- Output with a carriage return in front of each line feed. It has the same messages as the
output without them, and its block is the same block with them. -/
namespace LintReport

namespace Text

/-- A text with a carriage return put in front of each line feed. -/
def withReturns (s : List Char) : List Char :=
  s.flatMap fun c => if c = '\n' then ['\r', '\n'] else [c]

theorem withReturns_append (a b : List Char) :
    withReturns (a ++ b) = withReturns a ++ withReturns b :=
  List.flatMap_append

theorem withReturns_newline (s : List Char) :
    withReturns ('\n' :: s) = '\r' :: '\n' :: withReturns s := rfl

theorem withReturns_cons {c : Char} (inside : c ≠ '\n') (s : List Char) :
    withReturns (c :: s) = c :: withReturns s := by
  rw [withReturns, List.flatMap_cons, if_neg inside, List.singleton_append, withReturns]

theorem withReturns_of_not_mem {s : List Char} (inside : '\n' ∉ s) : withReturns s = s := by
  induction s with
  | nil => rfl
  | cons c s ih =>
      obtain ⟨other, rest⟩ := not_or.mp (List.mem_cons.not.mp inside)
      rw [withReturns_cons (Ne.symm other), ih rest]

theorem newline_mem_withReturns {s : List Char} : '\n' ∈ withReturns s ↔ '\n' ∈ s := by
  rw [withReturns, List.mem_flatMap]
  constructor
  · rintro ⟨c, member, written⟩
    split at written
    · next stop => exact stop ▸ member
    · exact List.mem_singleton.mp written ▸ member
  · intro member
    exact ⟨'\n', member, by simp⟩

/-- A text without line feeds comes from itself alone. -/
theorem withReturns_eq_iff {s t : List Char} (inside : '\n' ∉ t) : withReturns s = t ↔ s = t := by
  constructor
  · rintro rfl
    exact (withReturns_of_not_mem (newline_mem_withReturns.not.mp inside)).symm
  · rintro rfl
    exact withReturns_of_not_mem inside

theorem flatten_map_withReturns (lines : List (List Char)) :
    (lines.map withReturns).flatten = withReturns lines.flatten := by
  induction lines with
  | nil => rfl
  | cons line lines ih =>
      rw [List.map_cons, List.flatten_cons, List.flatten_cons, withReturns_append, ih]

/-- The lines stay, each with its own carriage return. -/
theorem wholeLines_withReturns (s : List Char) :
    wholeLines (withReturns s) = (wholeLines s).map withReturns := by
  induction s with
  | nil => rfl
  | cons c s ih =>
      by_cases stop : c = '\n'
      · rw [stop, withReturns_newline, wholeLines_cons (by decide) (wholeLines_newline _), ih,
          wholeLines_newline]
        rfl
      · rw [withReturns_cons stop, wholeLines, if_neg stop, ih, wholeLines, if_neg stop]
        cases wholeLines s with
        | nil => exact congrArg (fun line => [line]) (withReturns_cons stop []).symm
        | cons line lines =>
            exact congrArg (· :: lines.map withReturns) (withReturns_cons stop line).symm

theorem isLine_or_of_mem_wholeLines {s line : List Char} (member : line ∈ wholeLines s) :
    IsLine line ∨ '\n' ∉ line := by
  obtain ⟨front, back, read⟩ := List.append_of_mem member
  obtain ⟨_, _, read', _, _⟩ := exists_of_wholeLines_append (List.cons_ne_nil _ _) read
  obtain ⟨_, _, _, whole | ⟨inside, _⟩⟩ := exists_of_wholeLines_cons read'
  · exact Or.inl whole
  · exact Or.inr inside

/-- The carriage return goes with its line feed. -/
theorem chomp_withReturns {line : List Char} (whole : IsLine line ∨ '\n' ∉ line)
    (clear : '\r' ∉ line) : chomp (withReturns line) = chomp line := by
  rcases whole with ⟨content, inside, rfl⟩ | inside
  · have last : content.getLast? ≠ some '\r' := fun last =>
      clear (List.mem_append_left _ (List.mem_of_getLast? last))
    have ends : withReturns ['\n'] = ['\r'] ++ ['\n'] := rfl
    rw [withReturns_append, withReturns_of_not_mem inside, ends, ← List.append_assoc,
      chomp_append_pair, chomp_append_newline last]
  · rw [withReturns_of_not_mem inside]

theorem lines_withReturns {s : List Char} (clear : '\r' ∉ s) :
    lines (withReturns s) = lines s := by
  rw [lines, wholeLines_withReturns, List.map_map, lines]
  apply List.map_congr_left
  intro line member
  have clear' : '\r' ∉ line := by
    intro there
    rw [← flatten_wholeLines s] at clear
    exact clear (List.mem_flatten_of_mem member there)
  exact chomp_withReturns (isLine_or_of_mem_wholeLines member) clear'

/-- Both characters of a terminator are blank, so trimming takes them away together. -/
theorem trimEnd_withReturns (s : List Char) :
    trimEnd (withReturns s) = withReturns (trimEnd s) := by
  induction s using List.reverseRecOn with
  | nil => rfl
  | append_singleton s c ih =>
      rw [withReturns_append]
      by_cases stop : c = '\n'
      · have blank : isBlank '\n' = true := by decide
        have ends : withReturns ['\n'] = ['\r'] ++ ['\n'] := rfl
        rw [stop, ends, ← List.append_assoc, trimEnd_append_blank _ _ blank,
          trimEnd_append_blank _ _ (by decide), ih, trimEnd_append_blank _ _ blank]
      · have alone : withReturns [c] = [c] := withReturns_cons stop []
        cases blank : isBlank c with
        | true =>
            rw [alone, trimEnd_append_blank _ _ blank, ih, trimEnd_append_blank _ _ blank]
        | false =>
            rw [alone, trimEnd_append_solid _ _ blank, trimEnd_append_solid _ _ blank,
              withReturns_append, alone]

theorem trimEnd_withReturns_eq_iff (s : List Char) {t : List Char} (inside : '\n' ∉ t) :
    trimEnd (withReturns s) = t ↔ trimEnd s = t := by
  rw [trimEnd_withReturns, withReturns_eq_iff inside]

end Text

open Text (withReturns)

namespace Block

theorem isStart_withReturns (line : List Char) : isStart (withReturns line) = isStart line :=
  decide_eq_decide.mpr (Text.trimEnd_withReturns_eq_iff line (by decide))

theorem isEnd_withReturns (line : List Char) : isEnd (withReturns line) = isEnd line :=
  decide_eq_decide.mpr (Text.trimEnd_withReturns_eq_iff line (by decide))

theorem untilEnd_withReturns (lines : List (List Char)) :
    untilEnd (lines.map withReturns) = (untilEnd lines).map (List.map withReturns) := by
  induction lines with
  | nil => rfl
  | cons line lines ih =>
      rw [List.map_cons, untilEnd, untilEnd, isEnd_withReturns, ih]
      split
      · rfl
      · rw [Option.map_map, Option.map_map]
        rfl

/-- The block is found where it was, and its lines have their carriage returns. -/
theorem locate?_withReturns (text : List Char) :
    locate? (withReturns text) = (locate? text).map withReturns := by
  have starts : ((fun line => !isStart line) ∘ withReturns) = fun line => !isStart line := by
    funext line
    rw [Function.comp_apply, isStart_withReturns]
  rw [locate?, Text.wholeLines_withReturns, List.dropWhile_map, starts, locate?]
  cases (Text.wholeLines text).dropWhile fun line => !isStart line with
  | nil => rfl
  | cons start after =>
      rw [List.map_cons]
      dsimp only
      rw [untilEnd_withReturns, Option.map_map, Option.map_map]
      congr 1
      funext inside
      exact Text.flatten_map_withReturns inside

end Block

theorem CompilerMessage.scan_withReturns {text : List Char} (clear : '\r' ∉ text) :
    scan (withReturns text) = scan text := by
  rw [scan, Text.lines_withReturns clear, scan]

/-- Nothing that is recognized in a text without carriage returns changes when each of its line
feeds gets one: neither the messages nor the errors among them, nor whether there is a block. The
block gets its own carriage returns, also when it is found by offsets in bytes. -/
theorem withReturns_recognized (text : List Char) (clear : '\r' ∉ text) :
    CompilerMessage.scan (withReturns text) = CompilerMessage.scan text ∧
    CompilerMessage.errors (withReturns text) = CompilerMessage.errors text ∧
    ((∃ block, Block.locate? (withReturns text) = some block) ↔
      ∃ block, Block.locate? text = some block) ∧
    Block.locate? (withReturns text) = (Block.locate? text).map withReturns ∧
    Block.locateAt? (withReturns text) = some ((Block.locate? text).map withReturns) := by
  have messages := CompilerMessage.scan_withReturns clear
  have block := Block.locate?_withReturns text
  refine ⟨messages, ?_, ?_, block, ?_⟩
  · rw [CompilerMessage.errors, messages, CompilerMessage.errors]
  · rw [block]
    cases Block.locate? text <;> simp
  · rw [Block.locateAt?_eq, block]

/-- A message without source text, a blank line in the block, and an end that lacks its
terminator. -/
theorem withReturns_recognized_unterminated :
    let text := "a.c:4:7: error: x\n\n\n--- \nA: 1\n\nB: 2\n...".toList
    '\r' ∉ text ∧
      withReturns text =
        "a.c:4:7: error: x\r\n\r\n\r\n--- \r\nA: 1\r\n\r\nB: 2\r\n...".toList ∧
      CompilerMessage.errors (withReturns text) = [⟨"a.c", ⟨3, 6⟩, "error", "x"⟩] ∧
      Block.locate? (withReturns text) = some "A: 1\r\n\r\nB: 2\r\n".toList := by
  intro text
  have clear : '\r' ∉ text := by decide
  obtain ⟨_, errors, _, block, _⟩ := withReturns_recognized text clear
  refine ⟨clear, by decide, errors.trans (by decide +kernel), block.trans (by decide +kernel)⟩

end LintReport
