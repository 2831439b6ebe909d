import LintReport.Text.Floating

set_option autoImplicit false

/- What a plain scalar without a tag means. -/
namespace LintReport.Yaml

inductive Kind where
  | null
  | bool
  /-- A whole number below `2 ^ 64`. -/
  | natural (n : Nat)
  /-- A whole number written with a minus sign, not below `-2 ^ 63`. -/
  | signed (n : Int)
  /-- A whole number too large for 64 bits but not for 128. -/
  | wide
  | float
  | text
  deriving DecidableEq, Repr

namespace Kind

def isNull (s : String) : Bool := s = "null" || s = "Null" || s = "NULL" || s = "~"

def isBool (s : String) : Bool :=
  s = "true" || s = "True" || s = "TRUE" || s = "false" || s = "False" || s = "FALSE"

/-- Whether digits are no number, because they start with a needless zero. -/
def isPadded (s : List Char) : Bool :=
  let digits := match s with
    | '-' :: rest | '+' :: rest => rest
    | _ => s
  digits.length > 1 && digits.head? = some '0' && digits.tail.all Text.isDigit

/-- A number with the mark of its base, `0x`, `0o` or `0b`. -/
def marked? : List Char → Option Nat
  | '0' :: 'x' :: rest => Text.number? 16 rest
  | '0' :: 'o' :: rest => Text.number? 8 rest
  | '0' :: 'b' :: rest => Text.number? 2 rest
  | _ => none

def magnitude? (padded : Bool) (s : List Char) : Option Nat :=
  match marked? s with
  | some n => some n
  | none => if padded then none else Text.number? 10 s

def wideLimit : Nat := UInt64.size * UInt64.size

/-- A whole number; plus signs do not count. -/
def integer? (s : List Char) : Option Kind :=
  match s with
  | '-' :: rest =>
      match magnitude? (isPadded s) rest with
      | some n =>
          if n ≤ UInt64.size / 2 then some (.signed (-(n : Int)))
          else if n ≤ wideLimit / 2 then some .wide
          else none
      | none => none
  | _ =>
      let unsigned := match s with
        | '+' :: rest => rest
        | _ => s
      match magnitude? (isPadded s) unsigned with
      | some n =>
          if n < UInt64.size then some (.natural n)
          else if n < wideLimit then some .wide
          else none
      | none => none

def isInfinity (s : List Char) : Bool :=
  s = ".inf".toList || s = ".Inf".toList || s = ".INF".toList

/-- Whether a text is a number with a fraction or an exponent, or one of the words
for infinity and for no number. -/
def isFloat (s : List Char) : Bool :=
  let unsigned := match s with
    | '+' :: rest | '-' :: rest => rest
    | _ => s
  isInfinity unsigned || s = ".nan".toList || s = ".NaN".toList || s = ".NAN".toList ||
    (Text.Scientific.parse? unsigned).any Text.Scientific.isFinite

def ofText (s : String) : Kind :=
  if s.isEmpty || isNull s then .null
  else if isBool s then .bool
  else
    match integer? s.toList with
    | some k => k
    | none => if !isPadded s.toList && isFloat s.toList then .float else .text

end Kind

end LintReport.Yaml
