import LintReport.Proofs.Text.Decimal
import LintReport.Yaml.Kind

set_option autoImplicit false

/- Decimal digits mean the number that they were written for. -/
namespace LintReport.Yaml.Kind

theorem marked?_of_head? {s : List Char} (plain : s.head? ≠ some '0') : marked? s = none := by
  rw [marked?.eq_def]
  split
  · exact absurd rfl plain
  · exact absurd rfl plain
  · exact absurd rfl plain
  · rfl

theorem isPadded_of_head? {d : Char} {ds : List Char} (digit : Text.isDigit d = true)
    (plain : d ≠ '0') : isPadded (d :: ds) = false := by
  have minus : d ≠ '-' := Text.ne_of_isDigit digit (by decide)
  have plus : d ≠ '+' := Text.ne_of_isDigit digit (by decide)
  simp [isPadded, minus, plus, plain]

theorem magnitude?_decimal (n : Nat) :
    magnitude? (isPadded (Text.decimal n)) (Text.decimal n) = some n := by
  obtain ⟨d, ds, written, digit⟩ := Text.exists_decimal_eq_cons n
  by_cases zero : d = '0'
  · have none : n = 0 := Text.eq_zero_of_head?_decimal (by rw [written, zero]; rfl)
    subst none
    decide
  · have padded : isPadded (Text.decimal n) = false := by
      rw [written]
      exact isPadded_of_head? digit zero
    have unmarked : marked? (Text.decimal n) = none :=
      marked?_of_head? (by rw [written]; simpa using zero)
    rw [magnitude?, unmarked, padded]
    exact Text.number?_decimal n

theorem integer?_decimal {n : Nat} (fits : n < UInt64.size) :
    integer? (Text.decimal n) = some (.natural n) := by
  have value := magnitude?_decimal n
  obtain ⟨d, ds, written, digit⟩ := Text.exists_decimal_eq_cons n
  have minus : d ≠ '-' := Text.ne_of_isDigit digit (by decide)
  have plus : d ≠ '+' := Text.ne_of_isDigit digit (by decide)
  rw [written] at value ⊢
  rw [integer?]
  · simp [value, fits]
  · rintro rest ⟨⟩
    exact minus rfl
  · rintro rest ⟨⟩
    exact plus rfl

theorem ofText_decimal {n : Nat} (fits : n < UInt64.size) :
    ofText (String.ofList (Text.decimal n)) = .natural n := by
  obtain ⟨d, ds, written, digit⟩ := Text.exists_decimal_eq_cons n
  have letters : (String.ofList (Text.decimal n)).toList = d :: ds := by
    rw [String.toList_ofList, written]
  -- None of the words with a meaning starts with a digit.
  have other (s : String) (word : s.toList.head?.any (!Text.isDigit ·) = true) :
      String.ofList (Text.decimal n) ≠ s := by
    rintro rfl
    rw [letters] at word
    simp [digit] at word
  have filled : (String.ofList (Text.decimal n)).isEmpty = false := by
    rw [Bool.eq_false_iff, ne_eq, String.isEmpty_iff]
    intro empty
    rw [empty] at letters
    cases letters
  have null : isNull (String.ofList (Text.decimal n)) = false := by
    simp [isNull, other "null" (by decide), other "Null" (by decide), other "NULL" (by decide),
      other "~" (by decide)]
  have bool : isBool (String.ofList (Text.decimal n)) = false := by
    simp [isBool, other "true" (by decide), other "True" (by decide), other "TRUE" (by decide),
      other "false" (by decide), other "False" (by decide), other "FALSE" (by decide)]
  rw [ofText, filled, null, bool, String.toList_ofList, integer?_decimal fits]
  rfl

end LintReport.Yaml.Kind
