set_option autoImplicit false

/- Decimal and other digits. -/
namespace LintReport.Text

def isDigit (c : Char) : Bool := '0' ≤ c && c ≤ '9'

/-- The value of a digit of a base up to sixteen. -/
def digit? (c : Char) : Option Nat :=
  if '0' ≤ c ∧ c ≤ '9' then some (c.toNat - '0'.toNat)
  else if 'a' ≤ c ∧ c ≤ 'f' then some (c.toNat - 'a'.toNat + 10)
  else if 'A' ≤ c ∧ c ≤ 'F' then some (c.toNat - 'A'.toNat + 10)
  else none

def digitOf? (base : Nat) (c : Char) : Option Nat :=
  (digit? c).filter (· < base)

/-- The number that the digits write in `base`, after `acc`. -/
def digitsFrom? (base acc : Nat) : List Char → Option Nat
  | [] => some acc
  | c :: rest => (digitOf? base c).bind fun d => digitsFrom? base (acc * base + d) rest

def number? (base : Nat) (digits : List Char) : Option Nat :=
  if digits.isEmpty then none else digitsFrom? base 0 digits

def decimal (n : Nat) : List Char := Nat.toDigits 10 n

theorem digitsFrom?_append (base acc : Nat) (a b : List Char) :
    digitsFrom? base acc (a ++ b) =
      (digitsFrom? base acc a).bind fun n => digitsFrom? base n b := by
  induction a generalizing acc with
  | nil => rfl
  | cons c rest ih =>
      simp only [List.cons_append, digitsFrom?]
      cases digitOf? base c with
      | none => rfl
      | some d => exact ih _

end LintReport.Text
