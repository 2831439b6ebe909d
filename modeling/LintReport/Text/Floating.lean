import LintReport.Text.Decimal

set_option autoImplicit false

/- Decimal fractions with exponents, as far as it matters whether a text is one and
whether its value fits a binary number of 64 bits. -/
namespace LintReport.Text

structure Scientific where
  mantissa : Nat
  exponent : Int
  deriving Repr, DecidableEq

namespace Scientific

def digits (s : List Char) : List Char × List Char :=
  (s.takeWhile isDigit, s.dropWhile isDigit)

def exponent? : List Char → Option Int
  | [] => some 0
  | c :: rest =>
      if c = 'e' ∨ c = 'E' then
        match rest with
        | '-' :: ds => (number? 10 ds).map fun n => -(n : Int)
        | '+' :: ds => (number? 10 ds).map fun n => (n : Int)
        | ds => (number? 10 ds).map fun n => (n : Int)
      else none

/-- A number without a sign: digits, a fraction, and an exponent. One side of the
point may be empty. -/
def parse? (s : List Char) : Option Scientific :=
  let (whole, rest) := digits s
  let (fraction, rest) := match rest with
    | '.' :: rest => digits rest
    | _ => ([], rest)
  match number? 10 (whole ++ fraction), exponent? rest with
  | some m, some e => some ⟨m, e - fraction.length⟩
  | _, _ => none

/-- Half a step beyond the largest finite binary number of 64 bits. -/
def binaryLimit : Nat := Nat.pow 2 1024 - Nat.pow 2 970

/-- Whether the nearest binary number of 64 bits is finite. Numbers with far more or
far fewer digits than the limit are not compared with it. -/
def isFinite (x : Scientific) : Bool :=
  let size : Int := ((decimal x.mantissa).length : Int) + x.exponent
  if x.mantissa = 0 ∨ size ≤ 300 then true
  else if size ≥ 320 then false
  else if x.exponent ≥ 0 then x.mantissa * Nat.pow 10 x.exponent.toNat < binaryLimit
  else x.mantissa < binaryLimit * Nat.pow 10 (-x.exponent).toNat

end Scientific

end LintReport.Text
