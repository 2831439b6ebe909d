import LintReport.Text.Blank
import LintReport.Text.Lines
import Mathlib.Data.List.Basic
import Mathlib.Data.List.Chain

set_option autoImplicit false

/- The lines of a text that goes on. What is written behind a text cannot change its lines,
except that it may terminate the last one. -/
namespace LintReport.Text

/-- Whether a text has no line that lacks its terminator. -/
def IsFinished (s : List Char) : Prop := ∀ c ∈ s.getLast?, c = '\n'

@[simp] theorem isFinished_nil : IsFinished [] := by simp [IsFinished]

@[simp] theorem isFinished_append_newline (s : List Char) : IsFinished (s ++ ['\n']) := by
  simp [IsFinished]

theorem IsFinished.of_cons {c : Char} {s : List Char} (finished : IsFinished (c :: s)) :
    IsFinished s := by
  intro d last
  refine finished d ?_
  rw [List.getLast?_cons, Option.mem_def.mp last]
  rfl

theorem wholeLines_newline (s : List Char) : wholeLines ('\n' :: s) = ['\n'] :: wholeLines s := by
  rw [wholeLines, if_pos rfl]

theorem wholeLines_cons {c : Char} {s line : List Char} {lines : List (List Char)}
    (inside : c ≠ '\n') (read : wholeLines s = line :: lines) :
    wholeLines (c :: s) = (c :: line) :: lines := by
  rw [wholeLines, if_neg inside, read]

theorem wholeLines_ne_nil {s : List Char} (filled : s ≠ []) : wholeLines s ≠ [] := by
  intro none
  have text := flatten_wholeLines s
  rw [none, List.flatten_nil] at text
  exact filled text.symm

/-- A finished text and what follows it share no line. -/
theorem wholeLines_append {s : List Char} (finished : IsFinished s) (t : List Char) :
    wholeLines (s ++ t) = wholeLines s ++ wholeLines t := by
  induction s with
  | nil => rfl
  | cons c s ih =>
      have whole := ih finished.of_cons
      by_cases stop : c = '\n'
      · rw [stop, List.cons_append, wholeLines_newline, wholeLines_newline, whole,
          List.cons_append]
      · have filled : s ≠ [] := by
          rintro rfl
          exact stop (finished c rfl)
        obtain ⟨line, lines, read⟩ := List.exists_cons_of_ne_nil (wholeLines_ne_nil filled)
        rw [read, List.cons_append] at whole
        rw [List.cons_append, wholeLines_cons stop whole, wholeLines_cons stop read,
          List.cons_append]

/-- A text without line feeds is one line. -/
theorem wholeLines_line {s : List Char} (filled : s ≠ []) (inside : '\n' ∉ s) :
    wholeLines s = [s] := by
  induction s with
  | nil => exact absurd rfl filled
  | cons c s ih =>
      obtain ⟨other, rest⟩ := not_or.mp (List.mem_cons.not.mp inside)
      by_cases empty : s = []
      · rw [empty, wholeLines, if_neg (Ne.symm other)]
        rfl
      · exact wholeLines_cons (Ne.symm other) (ih empty rest)

theorem wholeLines_line_newline {s : List Char} (inside : '\n' ∉ s) :
    wholeLines (s ++ ['\n']) = [s ++ ['\n']] := by
  induction s with
  | nil => rfl
  | cons c s ih =>
      obtain ⟨other, rest⟩ := not_or.mp (List.mem_cons.not.mp inside)
      exact wholeLines_cons (Ne.symm other) (ih rest)

theorem IsFinished.append {s t : List Char} (first : IsFinished s) (second : IsFinished t) :
    IsFinished (s ++ t) := by
  by_cases empty : t = []
  · rw [empty, List.append_nil]
    exact first
  · intro c last
    rw [List.getLast?_append_of_ne_nil _ empty] at last
    exact second c last

/-- A line with its terminator. -/
def IsLine (line : List Char) : Prop := ∃ content, '\n' ∉ content ∧ line = content ++ ['\n']

theorem IsLine.isFinished {line : List Char} (whole : IsLine line) : IsFinished line := by
  obtain ⟨content, _, rfl⟩ := whole
  exact isFinished_append_newline content

theorem IsLine.wholeLines_eq {line : List Char} (whole : IsLine line) :
    wholeLines line = [line] := by
  obtain ⟨content, inside, rfl⟩ := whole
  exact wholeLines_line_newline inside

/-- The first line comes off a text. Only the last one can lack its terminator. -/
theorem exists_of_wholeLines_cons {s line : List Char} {lines : List (List Char)}
    (read : wholeLines s = line :: lines) : ∃ rest, s = line ++ rest ∧ wholeLines rest = lines ∧
      (IsLine line ∨ '\n' ∉ line ∧ rest = []) := by
  induction s generalizing line lines with
  | nil => cases read
  | cons c s ih =>
      by_cases stop : c = '\n'
      · rw [stop, wholeLines_newline] at read
        cases read
        exact ⟨s, by rw [stop]; rfl, rfl, Or.inl ⟨[], List.not_mem_nil, rfl⟩⟩
      · rw [wholeLines, if_neg stop] at read
        split at read
        · next none =>
            cases read
            have empty : s = [] := by
              rw [← flatten_wholeLines s, none, List.flatten_nil]
            refine ⟨[], by rw [empty]; rfl, rfl, Or.inr ⟨?_, rfl⟩⟩
            simp [Ne.symm stop]
        · next line' lines' deeper =>
            cases read
            obtain ⟨rest, rfl, others, ends⟩ := ih deeper
            refine ⟨rest, rfl, others, ?_⟩
            rcases ends with ⟨content, inside, rfl⟩ | ⟨inside, none⟩
            · exact Or.inl ⟨c :: content, by simp [inside, Ne.symm stop], rfl⟩
            · exact Or.inr ⟨by simp [inside, Ne.symm stop], none⟩

/-- Lines in front of others are a finished text of their own. -/
theorem exists_of_wholeLines_append {s : List Char} {front others : List (List Char)}
    (more : others ≠ []) (read : wholeLines s = front ++ others) :
    ∃ rest, s = front.flatten ++ rest ∧ wholeLines rest = others ∧ IsFinished front.flatten ∧
      wholeLines front.flatten = front := by
  induction front generalizing s with
  | nil => exact ⟨s, rfl, read, isFinished_nil, rfl⟩
  | cons line front ih =>
      rw [List.cons_append] at read
      obtain ⟨s', rfl, read', whole | ⟨_, none⟩⟩ := exists_of_wholeLines_cons read
      · obtain ⟨rest, rfl, others', finished, lines⟩ := ih read'
        refine ⟨rest, ?_, others', ?_, ?_⟩
        · rw [List.flatten_cons, List.append_assoc]
        · rw [List.flatten_cons]
          exact whole.isFinished.append finished
        · rw [List.flatten_cons, wholeLines_append whole.isFinished, whole.wholeLines_eq, lines,
            List.singleton_append]
      · rw [none] at read'
        exact absurd (List.append_eq_nil_iff.mp read'.symm).2 more

/-- The first line starts as the text does. -/
theorem head?_wholeLines {s line : List Char} {lines : List (List Char)}
    (read : wholeLines s = line :: lines) : line.head? = s.head? := by
  have text := flatten_wholeLines s
  rw [read, List.flatten_cons] at text
  cases s with
  | nil => cases read
  | cons c s =>
      by_cases stop : c = '\n'
      · rw [stop, wholeLines_newline] at read
        cases read
        rw [stop]
        rfl
      · rw [wholeLines, if_neg stop] at read
        split at read <;> cases read <;> rfl

theorem head?_ne_of_tail {m : Char} {s : List Char} (start : s.head? ≠ some m)
    (others : ∀ line ∈ (wholeLines s).tail, line.head? ≠ some m) :
    ∀ line ∈ wholeLines s, line.head? ≠ some m := by
  cases read : wholeLines s with
  | nil => simp
  | cons line lines =>
      rw [read, List.tail_cons] at others
      exact List.forall_mem_cons.mpr ⟨head?_wholeLines read ▸ start, others⟩

/-- No line behind the first starts with `m` when nothing behind a line end does. -/
theorem head?_of_mem_tail_wholeLines {m : Char} {s : List Char}
    (chain : s.IsChain fun a b => a = '\n' → b ≠ m) :
    ∀ line ∈ (wholeLines s).tail, line.head? ≠ some m := by
  induction s with
  | nil => simp [wholeLines]
  | cons c s ih =>
      obtain ⟨next, rest⟩ := List.isChain_cons.mp chain
      by_cases stop : c = '\n'
      · have start : s.head? ≠ some m := fun first => next m first stop rfl
        rw [stop, wholeLines_newline, List.tail_cons]
        exact head?_ne_of_tail start (ih rest)
      · have others := ih rest
        rw [wholeLines, if_neg stop]
        split
        · simp
        · next read => simpa [read] using others

theorem head?_of_mem_wholeLines {m : Char} {s : List Char} (start : s.head? ≠ some m)
    (chain : s.IsChain fun a b => a = '\n' → b ≠ m) :
    ∀ line ∈ wholeLines s, line.head? ≠ some m :=
  head?_ne_of_tail start (head?_of_mem_tail_wholeLines chain)

/-- A text is finished up to its last line, which may lack its terminator. -/
theorem exists_finished_append (s : List Char) :
    ∃ front last, s = front ++ last ∧ IsFinished front ∧ '\n' ∉ last := by
  induction s with
  | nil => exact ⟨[], [], rfl, isFinished_nil, List.not_mem_nil⟩
  | cons c s ih =>
      obtain ⟨front, last, rfl, finished, inside⟩ := ih
      by_cases start : front = []
      · by_cases stop : c = '\n'
        · refine ⟨[c], last, by rw [start]; rfl, ?_, inside⟩
          simp [IsFinished, stop]
        · exact ⟨[], c :: last, by rw [start]; rfl, isFinished_nil, by simp [inside, Ne.symm stop]⟩
      · refine ⟨c :: front, last, rfl, ?_, inside⟩
        intro d final
        rw [List.getLast?_cons_of_ne_nil start] at final
        exact finished d final

/-- Lines that others go on from: nothing changes but that more may follow, and that the last
line may get its terminator. -/
def Continues (lines lines' : List (List Char)) : Prop :=
  lines = [] ∨ ∃ front last last' more, lines = front ++ [last] ∧ lines' = front ++ last' :: more ∧
    (last' = last ∨ last' = last ++ ['\n'])

theorem continues_append (lines more : List (List Char)) : Continues lines (lines ++ more) := by
  rcases List.eq_nil_or_concat lines with empty | ⟨front, last, equal⟩
  · exact Or.inl empty
  · rw [List.concat_eq_append] at equal
    refine Or.inr ⟨front, last, last, more, equal, ?_, Or.inl rfl⟩
    rw [equal, List.append_assoc, List.singleton_append]

/-- A text goes on behind its terminator, which it may still lack. -/
theorem continues_wholeLines (s t : List Char) :
    Continues (wholeLines s)
      (wholeLines (s ++ (if s.getLast?.any (· ≠ '\n') then ['\n'] else []) ++ t)) := by
  split
  · next lacking =>
      obtain ⟨front, last, rfl, finished, inside⟩ := exists_finished_append s
      have filled : last ≠ [] := by
        rintro rfl
        rw [List.append_nil] at lacking
        obtain ⟨c, final, other⟩ := (Option.any_eq_true _ _).mp lacking
        exact of_decide_eq_true other (finished c final)
      refine Or.inr ⟨wholeLines front, last, last ++ ['\n'], wholeLines t, ?_, ?_, Or.inr rfl⟩
      · rw [wholeLines_append finished, wholeLines_line filled inside]
      · rw [wholeLines_append (isFinished_append_newline _), List.append_assoc front,
          wholeLines_append finished, wholeLines_line_newline inside, List.append_assoc,
          List.singleton_append]
  · next done =>
      have finished : IsFinished s := by
        intro c final
        by_contra other
        exact done ((Option.any_eq_true _ _).mpr ⟨c, final, by simpa using other⟩)
      rw [List.append_nil, wholeLines_append finished]
      exact continues_append _ _

/-- A carriage return in front of the line feed goes with it. -/
theorem chomp_append_pair (line : List Char) : chomp (line ++ ['\r'] ++ ['\n']) = line := by
  simp [chomp]

theorem chomp_append_newline {line : List Char} (other : line.getLast? ≠ some '\r') :
    chomp (line ++ ['\n']) = line := by
  rcases List.eq_nil_or_concat line with rfl | ⟨front, c, rfl⟩
  · rfl
  · rw [List.concat_eq_append, List.getLast?_concat, Ne, Option.some_inj] at other
    simp [chomp, other]

theorem lines_append_newline {line : List Char} (inside : '\n' ∉ line) (rest : List Char) :
    lines (line ++ '\n' :: rest) = chomp (line ++ ['\n']) :: lines rest := by
  have split : line ++ '\n' :: rest = line ++ ['\n'] ++ rest := by simp
  rw [lines, split, wholeLines_append (isFinished_append_newline line),
    wholeLines_line_newline inside, List.map_append]
  rfl

end LintReport.Text
