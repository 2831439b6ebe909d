import LintReport.Output.Finding
import LintReport.Proofs.Output.Block
import LintReport.Proofs.Text.Offset

set_option autoImplicit false

/- The block of findings as a part of the text. A text can be split around its block in one way
only, and what stands around the block has no part in the findings. -/
namespace LintReport.Block

/-- A text split around a block: whole lines that start none, the line that starts it, its own
whole lines, the line that ends it, and anything. The line that ends it may lack its terminator
when nothing follows. -/
structure Delimits (text before start block stop after : List Char) : Prop where
  split : text = before ++ start ++ block ++ stop ++ after
  finished : Text.IsFinished before
  clear : ∀ line ∈ Text.wholeLines before, Text.trimEnd line ≠ ['-', '-', '-']
  startLine : Text.IsLine start
  starts : Text.trimEnd start = ['-', '-', '-']
  whole : Text.IsFinished block
  inside : ∀ line ∈ Text.wholeLines block, Text.trimEnd line ≠ ['.', '.', '.']
  stopLine : Text.IsLine stop ∨ '\n' ∉ stop ∧ after = []
  ends : Text.trimEnd stop = ['.', '.', '.']

variable {text before start block stop after : List Char}

/-- The lines of the parts are the lines of the text. -/
theorem Delimits.wholeLines_eq (parts : Delimits text before start block stop after) :
    Text.wholeLines text = Text.wholeLines before ++
      start :: (Text.wholeLines block ++ stop :: Text.wholeLines after) := by
  have last : Text.wholeLines (stop ++ after) = stop :: Text.wholeLines after := by
    rcases parts.stopLine with line | ⟨inside, none⟩
    · rw [Text.wholeLines_append line.isFinished, line.wholeLines_eq, List.singleton_append]
    · have filled : stop ≠ [] := by
        rintro rfl
        exact absurd parts.ends (by decide)
      rw [none, List.append_nil, Text.wholeLines_line filled inside]
      rfl
  rw [parts.split, List.append_assoc, List.append_assoc, List.append_assoc,
    Text.wholeLines_append parts.finished, Text.wholeLines_append parts.startLine.isFinished,
    Text.wholeLines_append parts.whole, parts.startLine.wholeLines_eq, last,
    List.singleton_append]

theorem isStart_eq_false {lines : List (List Char)} :
    (∀ line ∈ lines, isStart line = false) ↔
      ∀ line ∈ lines, Text.trimEnd line ≠ ['-', '-', '-'] := by
  simp only [isStart, decide_eq_false_iff_not, ne_eq]

theorem isEnd_eq_false {lines : List (List Char)} :
    (∀ line ∈ lines, isEnd line = false) ↔
      ∀ line ∈ lines, Text.trimEnd line ≠ ['.', '.', '.'] := by
  simp only [isEnd, decide_eq_false_iff_not, ne_eq]

/-- The lines behind the first one that starts a block. -/
theorem Delimits.dropWhile_eq (parts : Delimits text before start block stop after) :
    (Text.wholeLines text).dropWhile (fun line => !isStart line) =
      start :: (Text.wholeLines block ++ stop :: Text.wholeLines after) := by
  have starts : isStart start = true := decide_eq_true parts.starts
  rw [parts.wholeLines_eq]
  exact dropWhile_isStart (isStart_eq_false.mpr parts.clear) starts _

theorem Delimits.untilEnd_eq (parts : Delimits text before start block stop after) :
    untilEnd (Text.wholeLines block ++ stop :: Text.wholeLines after) =
      some (Text.wholeLines block) := by
  have ends : isEnd stop = true := decide_eq_true parts.ends
  exact untilEnd_append (isEnd_eq_false.mpr parts.inside) ends _

/-- What is found is the block of the split. -/
theorem Delimits.locate?_eq (parts : Delimits text before start block stop after) :
    locate? text = some block := by
  rw [locate?, parts.dropWhile_eq]
  dsimp only
  rw [parts.untilEnd_eq, Option.map_some, Text.flatten_wholeLines]

/-- A block between plain delimiters is found behind text that does not start one. -/
theorem locate?_delimited {before block after : List Char} (finished : Text.IsFinished before)
    (clear : ∀ line ∈ Text.wholeLines before, isStart line = false)
    (whole : Text.IsFinished block) (inside : ∀ line ∈ Text.wholeLines block, isEnd line = false)
    (ends : ∀ c ∈ after.head?, c = '\n') :
    locate? (before ++ (['-', '-', '-', '\n'] ++ block ++ ['.', '.', '.']) ++ after) =
      some block := by
  obtain ⟨stop, rest, close, stopLine, dots⟩ : ∃ stop rest, ['.', '.', '.'] ++ after = stop ++ rest ∧
      (Text.IsLine stop ∨ '\n' ∉ stop ∧ rest = []) ∧ Text.trimEnd stop = ['.', '.', '.'] := by
    cases after with
    | nil => exact ⟨['.', '.', '.'], [], rfl, Or.inr ⟨by decide, rfl⟩, by decide⟩
    | cons c rest =>
        rw [ends c rfl]
        exact ⟨['.', '.', '.', '\n'], rest, rfl, Or.inl ⟨['.', '.', '.'], by decide, rfl⟩,
          by decide⟩
  have split : before ++ (['-', '-', '-', '\n'] ++ block ++ ['.', '.', '.']) ++ after =
      before ++ ['-', '-', '-', '\n'] ++ block ++ stop ++ rest := by
    simp only [List.append_assoc, ← close]
  have startLine : Text.IsLine ['-', '-', '-', '\n'] := ⟨['-', '-', '-'], by decide, rfl⟩
  have parts : Delimits (before ++ (['-', '-', '-', '\n'] ++ block ++ ['.', '.', '.']) ++ after)
      before ['-', '-', '-', '\n'] block stop rest :=
    ⟨split, finished, isStart_eq_false.mp clear, startLine, by decide, whole,
      isEnd_eq_false.mp inside, stopLine, dots⟩
  exact parts.locate?_eq

/-- Lines that enclose a block are a split of the text around it. -/
theorem exists_delimits {lines : List (List Char)} (found : Encloses (Text.wholeLines text) lines) :
    ∃ before start stop after, Delimits text before start lines.flatten stop after := by
  obtain ⟨before, start, stop, after, read, clear, starts, inside, ends⟩ := found
  rw [List.append_assoc, List.cons_append] at read
  obtain ⟨text', rfl, read', finished, lines_eq⟩ :=
    Text.exists_of_wholeLines_append (List.cons_ne_nil _ _) read
  obtain ⟨text', rfl, read', startLine⟩ := Text.exists_of_wholeLines_cons read'
  have startLine' : Text.IsLine start := by
    rcases startLine with line | ⟨_, none⟩
    · exact line
    · rw [none] at read'
      simp [Text.wholeLines] at read'
  obtain ⟨text', rfl, read', whole, lines_eq'⟩ :=
    Text.exists_of_wholeLines_append (List.cons_ne_nil _ _) read'
  obtain ⟨rest, rfl, _, stopLine⟩ := Text.exists_of_wholeLines_cons read'
  refine ⟨before.flatten, start, stop, rest, ?_, finished, ?_, startLine',
    of_decide_eq_true starts, whole, ?_, stopLine, of_decide_eq_true ends⟩
  · simp only [List.append_assoc]
  · rw [lines_eq]
    exact isStart_eq_false.mp clear
  · rw [lines_eq']
    exact isEnd_eq_false.mp inside

theorem locate?_eq_some_iff_delimits : locate? text = some block ↔
    ∃ before start stop after, Delimits text before start block stop after := by
  constructor
  · intro found
    obtain ⟨lines, enclosed, rfl⟩ := locate?_eq_some_iff.mp found
    exact exists_delimits enclosed
  · rintro ⟨before, start, stop, after, parts⟩
    exact parts.locate?_eq

/-- Two splits of a text around a block are the same. -/
theorem Delimits.unique {before' start' block' stop' after' : List Char}
    (parts : Delimits text before start block stop after)
    (parts' : Delimits text before' start' block' stop' after') :
    before' = before ∧ start' = start ∧ block' = block ∧ stop' = stop ∧ after' = after := by
  obtain rfl : block' = block := by
    have found := parts.locate?_eq
    rw [parts'.locate?_eq] at found
    exact Option.some.inj found
  have lines := parts.dropWhile_eq
  rw [parts'.dropWhile_eq, List.cons.injEq, List.append_cancel_left_eq, List.cons.injEq] at lines
  obtain ⟨rfl, rfl, tails⟩ := lines
  obtain rfl : after' = after := by
    rw [← Text.flatten_wholeLines after', tails, Text.flatten_wholeLines]
  have texts := parts.split
  rw [parts'.split] at texts
  simp only [List.append_assoc, List.append_cancel_right_eq] at texts
  exact ⟨texts, rfl, rfl, rfl, rfl⟩

/-- Without a split there is no block. -/
theorem locate?_eq_none (unsplit : ¬ ∃ before start block stop after,
    Delimits text before start block stop after) : locate? text = none := by
  apply Option.eq_none_iff_forall_ne_some.mpr
  intro block found
  obtain ⟨before, start, stop, after, parts⟩ := locate?_eq_some_iff_delimits.mp found
  exact unsplit ⟨before, start, block, stop, after, parts⟩

/-- The split stays when something else stands in front of the block and behind it. Behind a line
that lacks its terminator there is no room. -/
theorem Delimits.surround (parts : Delimits text before start block stop after)
    {before' after' : List Char} (finished : Text.IsFinished before')
    (clear : ∀ line ∈ Text.wholeLines before', Text.trimEnd line ≠ ['-', '-', '-'])
    (follows : stop.getLast? = some '\n' ∨ after' = after) :
    Delimits (before' ++ start ++ block ++ stop ++ after') before' start block stop after' := by
  have stopLine : Text.IsLine stop ∨ '\n' ∉ stop ∧ after' = [] := by
    rcases parts.stopLine with line | ⟨inside, none⟩
    · exact Or.inl line
    · right
      refine ⟨inside, ?_⟩
      rcases follows with terminated | kept
      · exact absurd (List.mem_of_getLast? terminated) inside
      · rw [kept, none]
  exact { parts with split := rfl, finished, clear, stopLine }

/-- The findings are those of the block, wherever it stands. -/
theorem Delimits.scan_eq (parts : Delimits text before start block stop after)
    {text' before' start' stop' after' : List Char}
    (parts' : Delimits text' before' start' block stop' after') :
    Finding.scan text' = Finding.scan text := by
  rw [Finding.scan, Finding.scan, parts.locate?_eq, parts'.locate?_eq]

/-! The scan by offsets. It goes through the lines once, with the offset of the next line and,
behind the line that starts the block, the offset of its first line. -/

/-- What is left to scan: the offset that the block starts at, if it has, and the offset of the
next line. The block is cut out of the text; `none` if a cut would fall inside a character. -/
def scanAt? (text : List Char) : (opened : Option Nat) → (cursor : Nat) → List (List Char) →
    Option (Option (List Char))
  | _, _, [] => some none
  | none, cursor, line :: lines =>
      let next := cursor + Text.byteLength line
      scanAt? text (if isStart line then some next else none) next lines
  | some opened, cursor, line :: lines =>
      if isEnd line then (Text.slice? opened cursor text).map some
      else scanAt? text (some opened) (cursor + Text.byteLength line) lines

def locateAt? (text : List Char) : Option (Option (List Char)) :=
  scanAt? text none 0 (Text.wholeLines text)

/-- Inside the block the cursor is at the end of what was read of it. -/
theorem scanAt?_opened (front read : List Char) (lines : List (List Char)) :
    scanAt? (front ++ read ++ lines.flatten) (some (Text.byteLength front))
        (Text.byteLength (front ++ read)) lines =
      some ((untilEnd lines).map fun inside => read ++ inside.flatten) := by
  induction lines generalizing read with
  | nil => rw [scanAt?, untilEnd, Option.map_none]
  | cons line lines ih =>
      rw [scanAt?, untilEnd]
      by_cases ends : isEnd line = true
      · rw [if_pos ends, if_pos ends, Text.slice?_byteLength]
        simp
      · have next := ih (read ++ line)
        have text : front ++ (read ++ line) ++ lines.flatten =
            front ++ read ++ (line :: lines).flatten := by simp
        rw [text, ← List.append_assoc, Text.byteLength_append (front ++ read)] at next
        rw [if_neg ends, if_neg ends, next, Option.map_map]
        congr 2
        funext inside
        simp

/-- In front of the block the cursor is at the end of what was read. -/
theorem scanAt?_closed (front : List Char) (lines : List (List Char)) :
    scanAt? (front ++ lines.flatten) none (Text.byteLength front) lines =
      some (match lines.dropWhile fun line => !isStart line with
        | [] => none
        | _ :: after => (untilEnd after).map List.flatten) := by
  induction lines generalizing front with
  | nil => rfl
  | cons line lines ih =>
      have text : front ++ line ++ lines.flatten = front ++ (line :: lines).flatten := by simp
      rw [scanAt?, ← Text.byteLength_append, ← text, List.dropWhile_cons]
      by_cases starts : isStart line = true
      · have opened := scanAt?_opened (front ++ line) [] lines
        rw [List.append_nil] at opened
        rw [if_pos starts, opened, starts, Bool.not_true, if_neg Bool.false_ne_true]
        rfl
      · have other : isStart line = false := by simpa using starts
        rw [if_neg starts, ih (front ++ line), other, Bool.not_false, if_pos rfl]

/-- The scan finds the block, and never cuts inside a character. -/
theorem locateAt?_eq (text : List Char) : locateAt? text = some (locate? text) := by
  have closed := scanAt?_closed [] (Text.wholeLines text)
  rw [List.nil_append, Text.flatten_wholeLines, Text.byteLength_nil] at closed
  exact closed

/-- A block is found if the text can be split around it, and then in one way only; further lines
that would start a block are a part of it. The findings are those of the block, whatever whole
lines without a start stand in front of it and whatever follows, and there are none without a
block. The scan by offsets finds the same and makes no cut inside a character. -/
theorem locate?_delimits (text : List Char) :
    (∀ block, locate? text = some block ↔
      ∃ before start stop after, Delimits text before start block stop after) ∧
    (∀ before start block stop after before' start' block' stop' after',
      Delimits text before start block stop after →
      Delimits text before' start' block' stop' after' →
      before' = before ∧ start' = start ∧ block' = block ∧ stop' = stop ∧ after' = after) ∧
    (∀ text' before start block stop after before' start' stop' after',
      Delimits text before start block stop after →
      Delimits text' before' start' block stop' after' → Finding.scan text' = Finding.scan text) ∧
    (∀ before start block stop after before' after', Delimits text before start block stop after →
      Text.IsFinished before' →
      (∀ line ∈ Text.wholeLines before', Text.trimEnd line ≠ ['-', '-', '-']) →
      (stop.getLast? = some '\n' ∨ after' = after) →
      Finding.scan (before' ++ start ++ block ++ stop ++ after') = Finding.scan text) ∧
    ((¬ ∃ before start block stop after, Delimits text before start block stop after) →
      Finding.scan text = []) ∧
    locateAt? text = some (locate? text) := by
  refine ⟨fun _ => locate?_eq_some_iff_delimits, ?_, ?_, ?_, ?_, locateAt?_eq text⟩
  · intro before start block stop after before' start' block' stop' after' parts parts'
    exact parts.unique parts'
  · intro text' before start block stop after before' start' stop' after' parts parts'
    exact parts.scan_eq parts'
  · intro before start block stop after before' after' parts finished clear follows
    exact parts.scan_eq (parts.surround finished clear follows)
  · intro unsplit
    rw [Finding.scan, locate?_eq_none unsplit]
    rfl

end LintReport.Block
