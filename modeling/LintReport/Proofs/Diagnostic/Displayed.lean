import LintReport.Diagnostic
import LintReport.Proofs.Output.Header
import LintReport.Proofs.Text.Decimal
import LintReport.Proofs.Text.Lines

set_option autoImplicit false

/- Diagnostics that are printed as compilers print messages, and read back. The path may hold
colons and numbers; as long as it holds no whole location behind its first character, the first
location of the line is the one that was printed behind the path. -/
namespace LintReport

namespace Text

/-- Of two cuts of a text at one character, the first cut of the one is the first of the other,
or it lies further on. -/
theorem eq_or_of_append_cons {c : Char} {front front' rest rest' : List Char}
    (clear : c ∉ front') (equal : front ++ c :: rest = front' ++ c :: rest') :
    front = front' ∧ rest = rest' ∨
      ∃ between, front = front' ++ c :: between ∧ rest' = between ++ c :: rest := by
  rcases List.append_eq_append_iff.mp equal with ⟨extra, longer, left⟩ | ⟨extra, longer, left⟩
  · cases extra with
    | nil =>
        rw [List.append_nil] at longer
        exact Or.inl ⟨longer.symm, (List.cons.inj left).2⟩
    | cons d extra =>
        rw [longer, (List.cons.inj left).1] at clear
        simp at clear
  · cases extra with
    | nil =>
        rw [List.append_nil] at longer
        exact Or.inl ⟨longer, (List.cons.inj left).2.symm⟩
    | cons d extra =>
        obtain ⟨same, behind⟩ := List.cons.inj left
        rw [← same] at longer
        exact Or.inr ⟨extra, longer, behind⟩

theorem not_mem_decimal {c : Char} (other : isDigit c = false) (n : Nat) : c ∉ decimal n :=
  fun member => ne_of_isDigit (isDigit_of_mem_decimal member) other rfl

end Text

namespace CompilerMessage

theorem writes_decimal (n : UInt32) : Writes (Text.decimal n.toNat) n where
  filled := Text.decimal_ne_nil n.toNat
  plain := fun _ member => Text.isDigit_of_mem_decimal member
  value := by
    have read := Text.digitsFrom?_decimal n.toNat
    rw [Text.digitsFrom?_of_isDigit 0 fun _ member => Text.isDigit_of_mem_decimal member] at read
    exact Option.some.inj read

theorem Writes.not_mem {digits : List Char} {n : UInt32} (writes : Writes digits n) {c : Char}
    (other : Text.isDigit c = false) : c ∉ digits :=
  fun member => Text.ne_of_isDigit (writes.plain c member) other rfl

/-- What is written for a number does not start with a blank or a colon. -/
theorem Writes.ne_cons {digits rest behind : List Char} {n : UInt32} (writes : Writes digits n)
    {c : Char} (other : Text.isDigit c = false) : digits ++ rest ≠ c :: behind := by
  intro equal
  obtain ⟨d, digits', rfl⟩ := List.exists_cons_of_ne_nil writes.filled
  have same : d = c := (List.cons.inj equal).1
  exact writes.not_mem other (same ▸ List.mem_cons_self)

/-- A location that starts in front of a printed one ends in front of it, too. -/
theorem Locates.of_append {front rest rest' : List Char} {row column row' column' : UInt32}
    {rows columns : List Char} (rowWrites : Writes rows row) (columnWrites : Writes columns column)
    (filled : front ≠ [])
    (locates : Locates (front ++ ':' :: rows ++ ':' :: columns ++ ':' :: ' ' :: rest)
      row' column' rest') : ∃ behind, Locates front row' column' behind := by
  obtain ⟨rows', columns', rowWrites', columnWrites', equal⟩ := locates
  obtain ⟨c, front, rfl⟩ := List.exists_cons_of_ne_nil filled
  simp only [List.cons_append, List.append_assoc, List.cons.injEq] at equal
  obtain ⟨rfl, equal⟩ := equal
  have colon : Text.isDigit ':' = false := by decide
  rcases Text.eq_or_of_append_cons (rowWrites'.not_mem colon) equal with
    ⟨_, left⟩ | ⟨front', rfl, left⟩
  · -- The line of the one is what stands in front of the other, so its column is the other's line.
    have cut := Text.eq_or_of_append_cons (columnWrites'.not_mem colon) left
    rcases cut with ⟨_, blank⟩ | ⟨behind, digits, _⟩
    · exact absurd blank (columnWrites.ne_cons (by decide))
    · have member : ':' ∈ rows := by simp [digits]
      exact absurd member (rowWrites.not_mem colon)
  · rcases Text.eq_or_of_append_cons (columnWrites'.not_mem colon) left.symm with
      ⟨_, blank⟩ | ⟨front'', rfl, blank⟩
    · exact absurd blank (rowWrites.ne_cons (by decide))
    · -- The blank behind the column is there before the printed location begins.
      cases front'' with
      | nil => cases blank
      | cons d behind =>
          obtain ⟨blank, _⟩ := List.cons.inj blank
          rw [← blank]
          exact ⟨behind, rows', columns', rowWrites', columnWrites', by simp⟩

/-- A location in a text behind its first character. -/
def HoldsLocation (text : List Char) : Prop :=
  ∃ front behind row column rest, front ≠ [] ∧ text = front ++ behind ∧
    Locates behind row column rest

theorem splitLocation_isSome_iff (text : List Char) :
    (splitLocation text).isSome = true ↔ HoldsLocation text := by
  constructor
  · intro found
    obtain ⟨⟨front, ⟨row, column⟩, rest⟩, cut⟩ := Option.isSome_iff_exists.mp found
    obtain ⟨filled, ⟨behind, split, locates⟩, _⟩ := splitLocation_eq_some_iff.mp cut
    exact ⟨front, behind, row, column, rest, filled, split, locates⟩
  · rintro ⟨front, behind, row, column, rest, filled, rfl, locates⟩
    induction front with
    | nil => exact absurd rfl filled
    | cons c front ih =>
        rw [List.cons_append, splitLocation]
        cases here : location? (front ++ behind) with
        | some found => rfl
        | none =>
            rw [Option.isSome_map]
            apply ih
            rintro rfl
            rw [List.nil_append, location?_eq_some_iff.mpr locates] at here
            cases here

instance (text : List Char) : Decidable (HoldsLocation text) :=
  decidable_of_iff _ (splitLocation_isSome_iff text)

/-- A location printed behind a path that holds none is the first of its line. -/
theorem firstLocation_of_not_holdsLocation {path : List Char} (filled : path ≠ [])
    (free : ¬ HoldsLocation path) {row column : UInt32} {rows columns : List Char}
    (rowWrites : Writes rows row) (columnWrites : Writes columns column) (rest : List Char) :
    FirstLocation (path ++ ':' :: rows ++ ':' :: columns ++ ':' :: ' ' :: rest) path row column
      rest := by
  have located : Locates (':' :: rows ++ ':' :: columns ++ ':' :: ' ' :: rest) row column rest :=
    ⟨rows, columns, rowWrites, columnWrites, rfl⟩
  refine ⟨filled, ⟨_, by simp, located⟩, ?_⟩
  intro front behind row' column' rest' filled' split locates
  by_contra shorter
  -- A shorter front is one of the path itself, and the location behind it one of the path.
  rw [List.append_assoc, List.append_assoc, List.append_eq_append_iff] at split
  rcases split with ⟨extra, longer, _⟩ | ⟨between, whole, left⟩
  · rw [longer, List.length_append] at shorter
    omega
  · have inside : between ≠ [] := by
      rintro rfl
      rw [whole, List.append_nil] at shorter
      exact shorter (Nat.le_refl _)
    rw [left, ← List.append_assoc, ← List.append_assoc] at locates
    obtain ⟨rest'', here⟩ := Locates.of_append rowWrites columnWrites inside locates
    exact free ⟨front, between, row', column', rest'', filled', whole, here⟩

end CompilerMessage

namespace Position

/-- A position with numbers that can be counted from one. -/
def IsCountable (p : Position) : Prop :=
  p.line.toNat < 2 ^ 32 - 1 ∧ p.character.toNat < 2 ^ 32 - 1

instance (p : Position) : Decidable p.IsCountable :=
  inferInstanceAs (Decidable (p.line.toNat < 2 ^ 32 - 1 ∧ p.character.toNat < 2 ^ 32 - 1))

theorem toNat_add_one {n : UInt32} (below : n.toNat < 2 ^ 32 - 1) :
    (n + 1).toNat = n.toNat + 1 := by
  rw [UInt32.toNat_add, UInt32.toNat_one]
  omega

theorem predecessor_add_one {n : UInt32} (below : n.toNat < 2 ^ 32 - 1) :
    predecessor (n + 1) = n := by
  rw [← UInt32.toNat_inj, toNat_predecessor, toNat_add_one below, Nat.add_sub_cancel]

theorem ofOneBased_add_one {p : Position} (countable : p.IsCountable) :
    ofOneBased (p.line + 1) (p.character + 1) = p := by
  rw [ofOneBased, predecessor_add_one countable.1, predecessor_add_one countable.2]

theorem isCountable_ofOneBased (row column : UInt32) : (ofOneBased row column).IsCountable := by
  unfold IsCountable ofOneBased
  dsimp only
  have rows := row.toNat_lt
  have columns := column.toNat_lt
  rw [toNat_predecessor, toNat_predecessor]
  omega

end Position

namespace Diagnostic

/-- The source of all diagnostics as it is printed. -/
def tag : List Char := "[clang-tidy] ".toList

theorem tag_eq : tag = '[' :: source.toList ++ [']', ' '] := by decide

/-- The text of a diagnostic with its source in front. -/
def sourced (message : List Char) : List Char := tag ++ message

theorem sourced_eq (message : List Char) :
    sourced message = '[' :: source.toList ++ ']' :: ' ' :: message := by
  rw [sourced, tag_eq, List.append_assoc]
  rfl

/-- The line that is printed for a diagnostic. -/
def line (path : List Char) (p : Position) (severity : Severity) (message : List Char) :
    List Char :=
  path ++ ':' :: Text.decimal (p.line + 1).toNat ++ ':' :: Text.decimal (p.character + 1).toNat ++
    ':' :: ' ' :: (severity.label.toList ++ ':' :: ' ' :: sourced message)

theorem toList_display (d : Diagnostic) (path : Path) :
    (d.display path).toList = line path.text.toList d.range.start d.severity d.message.toList := by
  rw [display, String.toList_ofList, line, sourced_eq]
  simp only [List.append_assoc, List.cons_append]

theorem exists_line_eq (path : List Char) (p : Position) (severity : Severity) :
    ∃ front, ∀ message, line path p severity message = front ++ ' ' :: message := by
  refine ⟨path ++ ':' :: Text.decimal (p.line + 1).toNat ++
    ':' :: Text.decimal (p.character + 1).toNat ++
    ':' :: ' ' :: (severity.label.toList ++ ':' :: ' ' :: '[' :: source.toList ++ [']']), ?_⟩
  intro message
  rw [line, sourced_eq]
  simp only [List.append_assoc, List.cons_append, List.nil_append]

theorem trim_label (s : Severity) : Text.trim s.label.toList = s.label.toList := by
  cases s <;> decide

theorem colon_not_mem_label (s : Severity) : ':' ∉ s.label.toList := by
  cases s <;> decide

theorem solid_label (s : Severity) : ∃ c ∈ s.label.toList, Text.isBlank c = false := by
  have solid : (s.label.toList.any fun c => !Text.isBlank c) = true := by
    cases s <;> decide
  simpa using solid

/-- The line of a diagnostic is read as the message that it was printed for. -/
theorem ofHeader?_line {path : List Char} (filled : path ≠ [])
    (free : ¬ CompilerMessage.HoldsLocation path) {p : Position} (countable : p.IsCountable)
    (severity : Severity) (message : List Char) :
    CompilerMessage.ofHeader? (line path p severity message) =
      some ⟨String.ofList path, p, severity.label, String.ofList (Text.trimEnd (sourced message))⟩ := by
  have first := CompilerMessage.firstLocation_of_not_holdsLocation filled free
    (CompilerMessage.writes_decimal (p.line + 1)) (CompilerMessage.writes_decimal (p.character + 1))
    (severity.label.toList ++ ':' :: ' ' :: sourced message)
  have trimmed : Text.trim (' ' :: sourced message) = Text.trimEnd (sourced message) := by
    rw [Text.trim, sourced_eq]
    rfl
  rw [CompilerMessage.ofHeader?_eq_bind, line,
    CompilerMessage.splitLocation_eq_some_iff.mpr first, Option.bind_some,
    CompilerMessage.behind?_eq_some_iff]
  refine ⟨severity.label.toList, ' ' :: sourced message, rfl, colon_not_mem_label severity,
    solid_label severity, ?_⟩
  rw [Position.ofOneBased_add_one countable, trim_label, trimmed, String.ofList_toList]

/-- A carriage return at the end of the message is taken for a part of the terminator, and it would
have been trimmed anyway. -/
theorem chomp_line (path : List Char) (p : Position) (severity : Severity) (message : List Char) :
    ∃ kept, Text.chomp (line path p severity message ++ ['\n']) = line path p severity kept ∧
      Text.trimEnd (sourced kept) = Text.trimEnd (sourced message) := by
  obtain ⟨front, equal⟩ := exists_line_eq path p severity
  by_cases last : message.getLast? = some '\r'
  · obtain ⟨kept, rfl⟩ := List.getLast?_eq_some_iff.mp last
    refine ⟨kept, ?_, ?_⟩
    · rw [equal, equal, ← List.cons_append, ← List.append_assoc, Text.chomp_append_pair]
    · rw [sourced, sourced, ← List.append_assoc]
      exact (Text.trimEnd_append_blank _ _ (by decide)).symm
  · refine ⟨message, ?_, rfl⟩
    apply Text.chomp_append_newline
    rw [equal, List.getLast?_append, List.getLast?_cons]
    cases final : message.getLast? with
    | none => simp
    | some c => simpa [final] using last

end Diagnostic

namespace CompilerMessage

/-- A header with two lines behind it is the only message of its text. -/
theorem scan_three {line : List Char} {message : CompilerMessage}
    (read : ofHeader? (Text.chomp (line ++ ['\n'])) = some message) (inside : '\n' ∉ line)
    {first second : List Char} (inside' : '\n' ∉ first) (inside'' : '\n' ∉ second) :
    scan (line ++ '\n' :: (first ++ '\n' :: (second ++ ['\n']))) = [message] := by
  have none : Text.lines [] = [] := rfl
  rw [scan, Text.lines_append_newline inside, Text.lines_append_newline inside',
    Text.lines_append_newline inside'', none, ofLines, read]
  rfl

end CompilerMessage

namespace Diagnostic

/-- A printed diagnostic is read back: with two lines behind it, it is the one message of its
text, at the same position, and an error just when the diagnostic is one. No number overflows in
printing, and none does for a position that was read. -/
theorem scan_display (d : Diagnostic) (path : Path) (first second : List Char)
    (countable : d.range.start.IsCountable) (inLine : '\n' ∉ d.message.toList)
    (filled : path.text.toList ≠ []) (inside : '\n' ∉ path.text.toList)
    (free : ¬ CompilerMessage.HoldsLocation path.text.toList)
    (inside' : '\n' ∉ first) (inside'' : '\n' ∉ second) :
    let message : CompilerMessage := ⟨path.text, d.range.start, d.severity.label,
      String.ofList (Text.trimEnd (sourced d.message.toList))⟩
    let text := (d.display path).toList ++ '\n' :: (first ++ '\n' :: (second ++ ['\n']))
    (d.range.start.line + 1).toNat = d.range.start.line.toNat + 1 ∧
      (d.range.start.character + 1).toNat = d.range.start.character.toNat + 1 ∧
      CompilerMessage.scan text = [message] ∧
      CompilerMessage.errors text = (if d.severity = .error then [message] else []) ∧
      ∀ row column, (Position.ofOneBased row column).IsCountable := by
  intro message text
  have digits (n : Nat) : '\n' ∉ Text.decimal n := Text.not_mem_decimal (by decide) n
  have label : '\n' ∉ d.severity.label.toList := by cases d.severity <;> decide
  have source : '\n' ∉ sourced d.message.toList := by
    have front : '\n' ∉ tag := by decide
    rw [sourced, List.mem_append]
    exact fun member => member.elim front inLine
  have printed : '\n' ∉ (d.display path).toList := by
    rw [toList_display, line]
    simp [inside, digits, label, source]
  have read : CompilerMessage.ofHeader? (Text.chomp ((d.display path).toList ++ ['\n'])) =
      some message := by
    obtain ⟨kept, chomped, trimmed⟩ := chomp_line path.text.toList d.range.start d.severity
      d.message.toList
    rw [toList_display, chomped, ofHeader?_line filled free countable, trimmed,
      String.ofList_toList]
  have scanned : CompilerMessage.scan text = [message] :=
    CompilerMessage.scan_three read printed inside' inside''
  refine ⟨Position.toNat_add_one countable.1, Position.toNat_add_one countable.2, scanned, ?_,
    Position.isCountable_ofOneBased⟩
  rw [CompilerMessage.errors, scanned]
  have severity : Severity.classify message.severity = d.severity :=
    Severity.classify_label d.severity
  by_cases error : d.severity = .error
  · simp [severity, error]
  · simp [severity, error]

/-- A path with numbers at its end, a message that holds a location, and the last line that can be
counted from one. -/
theorem scan_display_colons :
    let d : Diagnostic := ⟨Range.point ⟨4294967294, 0⟩, .error, "b:1:2: note: c\r", none⟩
    let path : Path := ⟨":3:4: a:5:6"⟩
    let message : CompilerMessage :=
      ⟨path.text, d.range.start, "error", "[clang-tidy] b:1:2: note: c"⟩
    d.range.start.IsCountable ∧ ¬ CompilerMessage.HoldsLocation path.text.toList ∧
      CompilerMessage.errors ((d.display path).toList ++ "\nx\n^\n".toList) = [message] := by
  intro d path message
  have countable : d.range.start.IsCountable := by decide
  have free : ¬ CompilerMessage.HoldsLocation path.text.toList := by decide +kernel
  obtain ⟨_, _, _, errors, _⟩ := scan_display d path ['x'] ['^'] countable (by decide)
    (by decide +kernel) (by decide +kernel) free (by decide) (by decide)
  have trimmed : String.ofList (Text.trimEnd (sourced d.message.toList)) =
      "[clang-tidy] b:1:2: note: c" := by decide +kernel
  rw [trimmed] at errors
  exact ⟨countable, free, errors⟩

end Diagnostic

end LintReport
