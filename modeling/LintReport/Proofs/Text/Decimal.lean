import LintReport.Text.Decimal
import Mathlib.Tactic.IntervalCases

set_option autoImplicit false

/- Decimal digits are read back as the number that they were written for. -/
namespace LintReport.Text

theorem digitOf?_digitChar {d : Nat} (small : d < 10) : digitOf? 10 d.digitChar = some d := by
  interval_cases d <;> decide

theorem isDigit_digitChar {d : Nat} (small : d < 10) : isDigit d.digitChar = true := by
  interval_cases d <;> decide

/-- The last digit comes off the end. -/
theorem decimal_of_le {n : Nat} (large : 10 ≤ n) :
    decimal n = decimal (n / 10) ++ [(n % 10).digitChar] :=
  Nat.toDigits_of_base_le (by decide) large

theorem decimal_of_lt {n : Nat} (small : n < 10) : decimal n = [n.digitChar] :=
  Nat.toDigits_of_lt_base small

theorem digitsFrom?_decimal (n : Nat) : digitsFrom? 10 0 (decimal n) = some n := by
  induction n using Nat.strongRecOn with
  | ind n ih =>
      by_cases small : n < 10
      · rw [decimal_of_lt small, digitsFrom?, digitOf?_digitChar small, Option.bind_some,
          digitsFrom?, Nat.zero_mul, Nat.zero_add]
      · have digit := digitOf?_digitChar (Nat.mod_lt n (show 10 > 0 by decide))
        rw [decimal_of_le (by omega), digitsFrom?_append, ih (n / 10) (by omega), Option.bind_some,
          digitsFrom?, digit, Option.bind_some, digitsFrom?, Nat.div_add_mod']

@[simp] theorem decimal_ne_nil (n : Nat) : decimal n ≠ [] := Nat.toDigits_ne_nil

theorem number?_decimal (n : Nat) : number? 10 (decimal n) = some n := by
  rw [number?, List.isEmpty_eq_false_iff.mpr (decimal_ne_nil n), digitsFrom?_decimal]
  rfl

theorem isDigit_of_mem_decimal {n : Nat} {c : Char} (member : c ∈ decimal n) :
    isDigit c = true := by
  induction n using Nat.strongRecOn with
  | ind n ih =>
      by_cases small : n < 10
      · rw [decimal_of_lt small, List.mem_singleton] at member
        exact member ▸ isDigit_digitChar small
      · rw [decimal_of_le (by omega), List.mem_append, List.mem_singleton] at member
        rcases member with before | rfl
        · exact ih (n / 10) (by omega) before
        · exact isDigit_digitChar (Nat.mod_lt n (by decide))

theorem ne_of_isDigit {c d : Char} (digit : isDigit c = true) (other : isDigit d = false) :
    c ≠ d := by
  intro equal
  rw [equal, other] at digit
  exact absurd digit (by decide)

/-- A number starts with a digit. -/
theorem exists_decimal_eq_cons (n : Nat) : ∃ d ds, decimal n = d :: ds ∧ isDigit d = true := by
  obtain ⟨d, ds, written⟩ := List.exists_cons_of_ne_nil (decimal_ne_nil n)
  have member : d ∈ decimal n := written ▸ List.mem_cons_self
  exact ⟨d, ds, written, isDigit_of_mem_decimal member⟩

/-- Only zero starts with a zero. -/
theorem eq_zero_of_head?_decimal {n : Nat} (zero : (decimal n).head? = some '0') : n = 0 := by
  induction n using Nat.strongRecOn with
  | ind n ih =>
      by_cases small : n < 10
      · rw [decimal_of_lt small] at zero
        interval_cases n <;> first | rfl | simp [Nat.digitChar] at zero
      · rw [decimal_of_le (by omega), List.head?_append,
          List.head?_eq_some_head (decimal_ne_nil (n / 10)), Option.some_or,
          ← List.head?_eq_some_head] at zero
        have none := ih (n / 10) (by omega) zero
        omega

end LintReport.Text
