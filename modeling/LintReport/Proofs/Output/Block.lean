import LintReport.Output.Block
import LintReport.Proofs.Text.Lines
import Mathlib.Data.List.TakeWhile

set_option autoImplicit false

/- Where the block of findings lies among the lines of a text. -/
namespace LintReport.Block

theorem untilEnd_append {inside : List (List Char)} (clear : ∀ line ∈ inside, isEnd line = false)
    {stop : List Char} (ends : isEnd stop = true) (after : List (List Char)) :
    untilEnd (inside ++ stop :: after) = some inside := by
  induction inside with
  | nil => rw [List.nil_append, untilEnd, if_pos ends]
  | cons line inside ih =>
      have here := clear line List.mem_cons_self
      rw [List.cons_append, untilEnd, if_neg (by simp [here]),
        ih fun other member => clear other (List.mem_cons_of_mem line member), Option.map_some]

theorem exists_of_untilEnd {lines inside : List (List Char)}
    (found : untilEnd lines = some inside) : ∃ stop after, lines = inside ++ stop :: after ∧
      (∀ line ∈ inside, isEnd line = false) ∧ isEnd stop = true := by
  induction lines generalizing inside with
  | nil => simp [untilEnd] at found
  | cons line lines ih =>
      rw [untilEnd] at found
      split at found
      · next ends =>
          cases found
          exact ⟨line, lines, rfl, by simp, ends⟩
      · next other =>
          obtain ⟨inside, deeper, rfl⟩ := Option.map_eq_some_iff.mp found
          obtain ⟨stop, after, rfl, clear, ends⟩ := ih deeper
          refine ⟨stop, after, rfl, ?_, ends⟩
          intro other' member
          rcases List.mem_cons.mp member with rfl | member
          · simpa using other
          · exact clear other' member

/-- Lines with a block in them: those in front, which do not start one, the first line that
does, the lines of the block, and the first line that ends it. -/
def Encloses (lines inside : List (List Char)) : Prop :=
  ∃ before start stop after, lines = before ++ start :: inside ++ stop :: after ∧
    (∀ line ∈ before, isStart line = false) ∧ isStart start = true ∧
    (∀ line ∈ inside, isEnd line = false) ∧ isEnd stop = true

/-- The lines from the first one on that starts a block. -/
theorem dropWhile_isStart {before : List (List Char)}
    (clear : ∀ line ∈ before, isStart line = false) {start : List Char}
    (starts : isStart start = true) (rest : List (List Char)) :
    (before ++ start :: rest).dropWhile (fun line => !isStart line) = start :: rest := by
  rw [List.dropWhile_append_of_pos, List.dropWhile_cons, if_neg (by simp [starts])]
  intro line member
  simp [clear line member]

theorem exists_of_dropWhile_isStart {lines rest : List (List Char)} {start : List Char}
    (opened : lines.dropWhile (fun line => !isStart line) = start :: rest) :
    ∃ before, lines = before ++ start :: rest ∧ (∀ line ∈ before, isStart line = false) ∧
      isStart start = true := by
  have first := List.head?_dropWhile_not (fun line => !isStart line) lines
  rw [opened] at first
  refine ⟨lines.takeWhile fun line => !isStart line, ?_, ?_, by simpa using first⟩
  · rw [← opened, List.takeWhile_append_dropWhile]
  · intro line member
    simpa using List.mem_takeWhile_imp member

theorem locate?_eq_some_iff {text block : List Char} : locate? text = some block ↔
    ∃ inside, Encloses (Text.wholeLines text) inside ∧ block = inside.flatten := by
  unfold locate?
  generalize Text.wholeLines text = lines
  constructor
  · intro found
    split at found
    · simp at found
    · next start rest opened =>
        obtain ⟨inside, ended, rfl⟩ := Option.map_eq_some_iff.mp found
        obtain ⟨stop, after, rfl, clear', ends⟩ := exists_of_untilEnd ended
        obtain ⟨before, rfl, clear, starts⟩ := exists_of_dropWhile_isStart opened
        refine ⟨inside, ⟨before, start, stop, after, ?_, clear, starts, clear', ends⟩, rfl⟩
        rw [List.append_assoc, List.cons_append]
  · rintro ⟨inside, ⟨before, start, stop, after, rfl, clear, starts, clear', ends⟩, rfl⟩
    rw [List.append_assoc, List.cons_append, dropWhile_isStart clear starts]
    dsimp only
    rw [untilEnd_append clear' ends, Option.map_some]

theorem isEnd_append_newline (line : List Char) : isEnd (line ++ ['\n']) = isEnd line := by
  rw [isEnd, isEnd, Text.trimEnd_append_blank line '\n' (by decide)]

/-- A line that ends a block starts with a dot. -/
theorem isEnd_of_head?_ne {line : List Char} (start : line.head? ≠ some '.') :
    isEnd line = false := by
  refine decide_eq_false fun dots => start ?_
  have back := List.reverse_prefix.mpr (List.dropWhile_suffix (l := line.reverse) Text.isBlank)
  obtain ⟨rest, equal⟩ := back
  rw [List.reverse_reverse] at equal
  rw [← equal]
  change (Text.trimEnd line ++ rest).head? = some '.'
  rw [dots]
  rfl

/-- A block stays where it is when the text goes on. -/
theorem Encloses.continued {lines lines' inside : List (List Char)} (here : Encloses lines inside)
    (continued : Text.Continues lines lines') : Encloses lines' inside := by
  obtain ⟨before, start, stop, after, split, clear, starts, clear', ends⟩ := here
  rcases continued with empty | ⟨front, last, last', more, split', goes, same⟩
  · simp [split] at empty
  · rw [split] at split'
    rcases List.eq_nil_or_concat after with none | ⟨after, final, equal⟩
    · rw [none] at split'
      obtain ⟨rfl, equal⟩ := List.append_inj' split' rfl
      obtain rfl := List.singleton_inj.mp equal
      refine ⟨before, start, last', more, goes, clear, starts, clear', ?_⟩
      rcases same with rfl | rfl
      · exact ends
      · rw [isEnd_append_newline, ends]
    · rw [equal, List.concat_eq_append, ← List.cons_append, ← List.append_assoc] at split'
      obtain ⟨rfl, _⟩ := List.append_inj' split' rfl
      exact ⟨before, start, stop, after ++ last' :: more, by simp [goes], clear, starts, clear',
        ends⟩

theorem locate?_continued {text longer block : List Char}
    (continued : Text.Continues (Text.wholeLines text) (Text.wholeLines longer))
    (found : locate? text = some block) : locate? longer = some block := by
  obtain ⟨inside, here, equal⟩ := locate?_eq_some_iff.mp found
  exact locate?_eq_some_iff.mpr ⟨inside, here.continued continued, equal⟩

end LintReport.Block
