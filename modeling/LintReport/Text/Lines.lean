set_option autoImplicit false

/- Lines of a text. A whole line keeps its line feed; only the last one may lack
it. The content of a line is a whole line without its terminator, which is a
line feed or a carriage return and a line feed. -/
namespace LintReport.Text

/-- The whole lines of a text, in order. -/
def wholeLines : List Char → List (List Char)
  | [] => []
  | c :: rest =>
      if c = '\n' then [c] :: wholeLines rest
      else
        match wholeLines rest with
        | [] => [[c]]
        | line :: lines => (c :: line) :: lines

theorem flatten_wholeLines (s : List Char) : (wholeLines s).flatten = s := by
  induction s with
  | nil => rfl
  | cons c rest ih =>
      simp only [wholeLines]
      split
      · simp [ih]
      · split <;> simp_all

/-- Drops the terminator of a whole line. A carriage return counts only before a
line feed. -/
def chomp (line : List Char) : List Char :=
  match line.reverse with
  | '\n' :: '\r' :: rest => rest.reverse
  | '\n' :: rest => rest.reverse
  | _ => line

def lines (s : List Char) : List (List Char) := (wholeLines s).map chomp

end LintReport.Text
