import LintReport.Text.Blank
import LintReport.Text.Lines

set_option autoImplicit false

/- The block of exported findings in the output of an analyzer: what stands
between a line `---` and the next line `...`. -/
namespace LintReport.Block

def isStart (line : List Char) : Bool := Text.trimEnd line = ['-', '-', '-']

def isEnd (line : List Char) : Bool := Text.trimEnd line = ['.', '.', '.']

/-- The lines before the first end line; `none` when there is no end line. -/
def untilEnd : List (List Char) → Option (List (List Char))
  | [] => none
  | line :: rest => if isEnd line then some [] else (untilEnd rest).map (line :: ·)

def locate? (text : List Char) : Option (List Char) :=
  match (Text.wholeLines text).dropWhile fun line => !isStart line with
  | [] => none
  | _ :: after => (untilEnd after).map List.flatten

end LintReport.Block
