import LintReport.Json.Token
import LintReport.Proofs.Text.Decimal

set_option autoImplicit false

/- The tokens of what is written: a quoted text and a number are read back as they were,
whatever stands behind them. -/
namespace LintReport.Json

/-- The characters that are escaped by a letter or a sign, with that letter or sign. -/
def shortEscapes : List (Char × Char) :=
  [('"', '"'), ('\\', '\\'), ('\x08', 'b'), ('\x0c', 'f'), ('\n', 'n'), ('\r', 'r'), ('\t', 't')]

/-- How one character is written. -/
inductive Written (c : Char) : List Char → Prop where
  | short {e : Char} (known : (c, e) ∈ shortEscapes) : Written c ['\\', e]
  | control (small : c.toNat < 0x20) :
      Written c ['\\', 'u', '0', '0', hexDigit (c.toNat / 16), hexDigit (c.toNat % 16)]
  | plain (unquoted : c ≠ '"') (unescaped : c ≠ '\\') (large : ¬ c.toNat < 0x20) : Written c [c]

theorem written_escape (c : Char) : Written c (escape c) := by
  unfold escape
  split_ifs with quote backslash backspace feed newline carriage tab small
  · exact .short (by simp [shortEscapes, quote])
  · exact .short (by simp [shortEscapes, backslash])
  · exact .short (by simp [shortEscapes, backspace])
  · exact .short (by simp [shortEscapes, feed])
  · exact .short (by simp [shortEscapes, newline])
  · exact .short (by simp [shortEscapes, carriage])
  · exact .short (by simp [shortEscapes, tab])
  · exact .control small
  · exact .plain quote backslash small

theorem number?_control {n : Nat} (small : n < 0x20) :
    Text.number? 16 ['0', '0', hexDigit (n / 16), hexDigit (n % 16)] = some n := by
  interval_cases n <;> decide

theorem stringUnits_short {c e : Char} (known : (c, e) ∈ shortEscapes) (rest : List Char) :
    stringUnits ('\\' :: e :: rest) = (stringUnits rest).map fun p => (c.toNat :: p.1, p.2) := by
  simp only [shortEscapes, List.mem_cons, List.not_mem_nil, or_false, Prod.mk.injEq] at known
  rcases known with ⟨rfl, rfl⟩ | ⟨rfl, rfl⟩ | ⟨rfl, rfl⟩ | ⟨rfl, rfl⟩ | ⟨rfl, rfl⟩ | ⟨rfl, rfl⟩ |
    ⟨rfl, rfl⟩ <;> simp only [stringUnits] <;> cases stringUnits rest <;> rfl

theorem stringUnits_plain {c : Char} (unquoted : c ≠ '"') (unescaped : c ≠ '\\')
    (large : ¬ c.toNat < 0x20) (rest : List Char) :
    stringUnits (c :: rest) = (stringUnits rest).map fun p => (c.toNat :: p.1, p.2) := by
  rw [stringUnits]
  · rw [if_neg (not_or.mpr ⟨large, unescaped⟩)]
  · exact unquoted
  · intro _ _ _ _ _ equal
    exact absurd equal unescaped
  · intro _ _ equal
    exact absurd equal unescaped

/-- An escaped character is read as that character. -/
theorem stringUnits_escape (c : Char) (rest : List Char) :
    stringUnits (escape c ++ rest) = (stringUnits rest).map fun p => (c.toNat :: p.1, p.2) := by
  have written := written_escape c
  generalize escape c = chars at written ⊢
  cases written with
  | short known => exact stringUnits_short known rest
  | control small =>
      simp only [List.cons_append, List.nil_append, stringUnits, number?_control small]
      cases stringUnits rest <;> rfl
  | plain unquoted unescaped large => exact stringUnits_plain unquoted unescaped large rest

theorem stringUnits_flatMap_escape (s rest : List Char) :
    stringUnits (s.flatMap escape ++ '"' :: rest) = some (s.map Char.toNat, rest) := by
  induction s with
  | nil => rfl
  | cons c s ih =>
      rw [List.flatMap_cons, List.append_assoc, stringUnits_escape, ih]
      rfl

/-- No character is half of one. -/
theorem joinUnits_map_toNat (s : List Char) : joinUnits (s.map Char.toNat) = some s := by
  induction s with
  | nil => rfl
  | cons c s ih =>
      have whole : ¬ (0xD800 ≤ c.toNat ∧ c.toNat < 0xDC00) ∧
          ¬ (0xDC00 ≤ c.toNat ∧ c.toNat < 0xE000) := by
        have valid := c.valid
        simp only [UInt32.isValidChar, Nat.isValidChar] at valid
        change c.toNat < 0xD800 ∨ 0xDFFF < c.toNat ∧ c.toNat < 0x110000 at valid
        omega
      unfold joinUnits
      simp only [List.map_cons, if_neg whole.1, if_neg whole.2, ih, Option.map_some,
        Char.ofNat_toNat]

theorem token?_quoted (s : String) (rest : List Char) :
    token? (quoted s ++ rest) = some (.scalar (.text s), rest) := by
  have units := stringUnits_flatMap_escape s.toList rest
  rw [quoted, List.cons_append, List.cons_append, List.append_assoc, List.singleton_append]
  unfold token?
  simp only [units, Option.map_some, joinUnits_map_toNat, String.ofList_toList]

/-- What stands behind a value that was written: nothing, or what ends it. -/
def Ends (rest : List Char) : Prop :=
  ∀ c ∈ rest.head?, c = ',' ∨ c = ']' ∨ c = '}'

/-- No number goes on there. -/
theorem Ends.stops {rest : List Char} (ends : Ends rest) :
    (rest.takeWhile Text.isDigit = [] ∧ rest.dropWhile Text.isDigit = rest) ∧
      fraction? rest = some (false, rest) ∧ exponent? rest = some (false, rest) := by
  cases rest with
  | nil => exact ⟨⟨rfl, rfl⟩, rfl, rfl⟩
  | cons c rest =>
      rcases ends c rfl with rfl | rfl | rfl <;> exact ⟨⟨rfl, rfl⟩, rfl, rfl⟩

theorem digits?_decimal (n : Nat) {rest : List Char} (ends : Ends rest) :
    digits? (Text.decimal n ++ rest) = some (Text.decimal n, rest) := by
  have stops := ends.stops.1
  have all : ∀ c ∈ Text.decimal n, Text.isDigit c = true := fun c => Text.isDigit_of_mem_decimal
  obtain ⟨d, ds, written, _⟩ := Text.exists_decimal_eq_cons n
  unfold digits?
  rw [List.takeWhile_append_of_pos all, List.dropWhile_append_of_pos all, stops.1, stops.2,
    List.append_nil, written]

/-- The digits of a number are all that it consists of. -/
theorem number?_decimal (n : Nat) {rest : List Char} (ends : Ends rest) :
    number? (Text.decimal n ++ rest) = some (.natural n, rest) := by
  obtain ⟨_, whole, unscaled⟩ := ends.stops
  have unsigned : sign (Text.decimal n ++ rest) = (false, Text.decimal n ++ rest) := by
    obtain ⟨d, ds, written, digit⟩ := Text.exists_decimal_eq_cons n
    rw [written, List.cons_append, sign]
    intro _ equal
    exact Text.ne_of_isDigit digit rfl (List.cons.inj equal).1
  have short : ¬ ((Text.decimal n).head? = some '0' ∧ (Text.decimal n).length > 1) := by
    intro needless
    have long := needless.2
    rw [Text.eq_zero_of_head?_decimal needless.1] at long
    exact absurd long (by decide)
  unfold number?
  rw [unsigned]
  simp only [digits?_decimal n ends, if_neg short, whole, unscaled, Text.number?_decimal,
    Bool.false_eq_true, or_false, if_false, Option.map_some]

theorem token?_decimal (n : Nat) {rest : List Char} (ends : Ends rest) :
    token? (Text.decimal n ++ rest) = some (.scalar (.natural n), rest) := by
  have number := number?_decimal n ends
  obtain ⟨d, ds, written, digit⟩ := Text.exists_decimal_eq_cons n
  have other : ∀ c, Text.isDigit c = false → d ≠ c := fun c => Text.ne_of_isDigit digit
  rw [written, List.cons_append] at number ⊢
  rw [token?, if_neg, number, Option.map_some]
  · simp only [not_or]
    exact ⟨other _ rfl, other _ rfl, other _ rfl, other _ rfl, other _ rfl, other _ rfl⟩
  · exact other _ rfl
  · intro _ equal
    exact absurd equal (other _ rfl)
  · intro _ equal
    exact absurd equal (other _ rfl)
  · intro _ equal
    exact absurd equal (other _ rfl)

theorem token?_mark {c : Char} (rest : List Char)
    (mark : c = '[' ∨ c = ']' ∨ c = '{' ∨ c = '}' ∨ c = ',' ∨ c = ':') :
    token? (c :: rest) = some (.mark c, rest) := by
  rcases mark with rfl | rfl | rfl | rfl | rfl | rfl <;> rfl

end LintReport.Json
