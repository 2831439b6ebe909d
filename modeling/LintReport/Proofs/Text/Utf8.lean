import Mathlib.Tactic.IntervalCases
import LintReport.Text.Utf8

set_option autoImplicit false

/- Reading back what was written. The encoding of a character is one piece of the
bytes, whatever follows it, so lenient reading gives back every encoded text. -/
namespace LintReport.Utf8

/-- A byte behind a lead byte, with the low six bits of `n`. -/
def tail (n : Nat) : UInt8 := UInt8.ofNat (n % 0x40 + 0x80)

theorem toNat_tail (n : Nat) : (tail n).toNat = n % 0x40 + 0x80 := by
  unfold tail
  rw [UInt8.toNat_ofNat']
  omega

theorem continuation_tail (count bits n : Nat) (low high : UInt8) (rest : List UInt8)
    (inside : low.toNat ≤ n % 0x40 + 0x80 ∧ n % 0x40 + 0x80 ≤ high.toNat) :
    continuation (count + 1) low high bits (tail n :: rest) =
      continuation count 0x80 0xBF (bits * 64 + n % 0x40) rest := by
  have fits : low ≤ tail n ∧ tail n ≤ high := by
    simp only [UInt8.le_iff_toNat_le, toNat_tail]
    exact inside
  rw [continuation, if_pos fits, toNat_tail, Nat.add_sub_cancel]

theorem pieces_lead {b : UInt8} {l : Lead} (rest : List UInt8) (high : 0x80 ≤ b.toNat)
    (announced : lead? b = some l) :
    pieces (b :: rest) =
      (continuation l.count l.low l.high l.bits rest).1.map Char.ofNat ::
        pieces (continuation l.count l.low l.high l.bits rest).2 := by
  have notAscii : ¬ b < 0x80 := by
    simp only [UInt8.lt_iff_toNat_lt]
    exact Nat.not_lt.mpr high
  rw [pieces, if_neg notAscii, announced]

theorem lead?_two (n : Nat) (low : 2 ≤ n) (high : n < 32) :
    lead? (UInt8.ofNat (n + 0xC0)) = some ⟨1, 0x80, 0xBF, n⟩ := by
  have value : (UInt8.ofNat (n + 0xC0)).toNat = n + 0xC0 := by
    rw [UInt8.toNat_ofNat']
    omega
  have inside : 0xC2 ≤ UInt8.ofNat (n + 0xC0) ∧ UInt8.ofNat (n + 0xC0) ≤ 0xDF := by
    simp only [UInt8.le_iff_toNat_le, value, UInt8.reduceToNat]
    omega
  rw [lead?, if_pos inside, value, Nat.add_sub_cancel]

/-- The bounds on the second byte keep out what fits fewer bytes, and the surrogates. -/
theorem lead?_three (n : Nat) (high : n < 16) :
    lead? (UInt8.ofNat (n + 0xE0)) =
      some ⟨2, if n = 0 then 0xA0 else 0x80, if n = 13 then 0x9F else 0xBF, n⟩ := by
  interval_cases n <;> rfl

/-- The bounds on the second byte keep out what fits fewer bytes, and what lies above
the last code point. -/
theorem lead?_four (n : Nat) (high : n < 5) :
    lead? (UInt8.ofNat (n + 0xF0)) =
      some ⟨3, if n = 0 then 0x90 else 0x80, if n = 4 then 0x8F else 0xBF, n⟩ := by
  interval_cases n <;> rfl

theorem toNat_ofNat {v : Nat} (scalar : v.isValidChar) : (Char.ofNat v).toNat = v := by
  rw [Char.ofNat, dif_pos scalar]
  rfl

/-- No scalar value is a surrogate, and none lies above the last code point. -/
theorem toNat_char (c : Char) :
    c.val.toNat < 0xD800 ∨ 0xDFFF < c.val.toNat ∧ c.val.toNat < 0x110000 := c.valid

theorem pieces_two (v : Nat) (rest : List UInt8) (low : 0x7F < v) (high : v ≤ 0x7FF) :
    pieces (UInt8.ofNat (v / 64 % 0x20 + 0xC0) :: tail v :: rest) =
      some (Char.ofNat v) :: pieces rest := by
  have lead := lead?_two (v / 64 % 0x20) (by omega) (by omega)
  have bits : v / 64 % 0x20 * 64 + v % 0x40 = v := by omega
  rw [pieces_lead _ ?_ lead, continuation_tail, continuation, bits]
  · rfl
  · simp only [UInt8.reduceToNat]
    omega
  · rw [UInt8.toNat_ofNat']
    omega

theorem pieces_three (v : Nat) (rest : List UInt8) (low : 0x7FF < v) (high : v ≤ 0xFFFF)
    (scalar : v < 0xD800 ∨ 0xDFFF < v) :
    pieces (UInt8.ofNat (v / 4096 % 0x10 + 0xE0) :: tail (v / 64) :: tail v :: rest) =
      some (Char.ofNat v) :: pieces rest := by
  have lead := lead?_three (v / 4096 % 0x10) (by omega)
  have bits : (v / 4096 % 0x10 * 64 + v / 64 % 0x40) * 64 + v % 0x40 = v := by omega
  rw [pieces_lead _ ?_ lead, continuation_tail, continuation_tail, continuation, bits]
  · rfl
  · simp only [UInt8.reduceToNat]
    omega
  · split <;> split <;> simp only [UInt8.reduceToNat] <;> omega
  · rw [UInt8.toNat_ofNat']
    omega

theorem pieces_four (v : Nat) (rest : List UInt8) (low : 0xFFFF < v) (high : v < 0x110000) :
    pieces (UInt8.ofNat (v / 262144 % 0x08 + 0xF0) :: tail (v / 4096) :: tail (v / 64) ::
        tail v :: rest) =
      some (Char.ofNat v) :: pieces rest := by
  have lead := lead?_four (v / 262144 % 0x08) (by omega)
  have bits : ((v / 262144 % 0x08 * 64 + v / 4096 % 0x40) * 64 + v / 64 % 0x40) * 64 +
      v % 0x40 = v := by omega
  rw [pieces_lead _ ?_ lead, continuation_tail, continuation_tail, continuation_tail,
    continuation, bits]
  · rfl
  · simp only [UInt8.reduceToNat]
    omega
  · simp only [UInt8.reduceToNat]
    omega
  · split <;> split <;> simp only [UInt8.reduceToNat] <;> omega
  · rw [UInt8.toNat_ofNat']
    omega

/-- One character in front is one piece, with any bytes behind it. -/
theorem pieces_utf8EncodeChar (c : Char) (rest : List UInt8) :
    pieces (String.utf8EncodeChar c ++ rest) = some c :: pieces rest := by
  have scalar := toNat_char c
  have same : Char.ofNat c.val.toNat = c := Char.ofNat_toNat c
  unfold String.utf8EncodeChar
  generalize c.val.toNat = v at scalar same
  rw [← same]
  dsimp only
  by_cases one : v ≤ 0x7F
  · have value : (UInt8.ofNat v).toNat = v := by
      rw [UInt8.toNat_ofNat']
      omega
    have ascii : UInt8.ofNat v < 0x80 := by
      simp only [UInt8.lt_iff_toNat_lt, value, UInt8.reduceToNat]
      omega
    rw [if_pos one, List.singleton_append, pieces_ascii _ _ ascii, value]
  rw [if_neg one]
  by_cases two : v ≤ 0x7FF
  · rw [if_pos two]
    exact pieces_two v rest (by omega) two
  rw [if_neg two]
  by_cases three : v ≤ 0xFFFF
  · rw [if_pos three]
    exact pieces_three v rest (by omega) three (by omega)
  · rw [if_neg three]
    exact pieces_four v rest (by omega) (by omega)

theorem le_toNat_ofNat {n : Nat} (low : 0x80 ≤ n) (high : n < 0x100) :
    0x80 ≤ (UInt8.ofNat n).toNat := by
  rw [UInt8.toNat_ofNat']
  omega

/-- All bytes of a character that takes several are marked. -/
theorem le_of_mem_utf8EncodeChar {c : Char} (long : 0x7F < c.val.toNat) :
    ∀ b ∈ String.utf8EncodeChar c, 0x80 ≤ b.toNat := by
  unfold String.utf8EncodeChar
  dsimp only
  generalize c.val.toNat = v at long ⊢
  rw [if_neg (by omega)]
  split
  · simp only [List.forall_mem_cons, List.not_mem_nil, false_implies, implies_true, and_true]
    constructor
    · exact le_toNat_ofNat (by omega) (by omega)
    · exact le_toNat_ofNat (by omega) (by omega)
  split
  · simp only [List.forall_mem_cons, List.not_mem_nil, false_implies, implies_true, and_true]
    refine ⟨?_, ?_, ?_⟩
    · exact le_toNat_ofNat (by omega) (by omega)
    · exact le_toNat_ofNat (by omega) (by omega)
    · exact le_toNat_ofNat (by omega) (by omega)
  · simp only [List.forall_mem_cons, List.not_mem_nil, false_implies, implies_true, and_true]
    refine ⟨?_, ?_, ?_, ?_⟩
    · exact le_toNat_ofNat (by omega) (by omega)
    · exact le_toNat_ofNat (by omega) (by omega)
    · exact le_toNat_ofNat (by omega) (by omega)
    · exact le_toNat_ofNat (by omega) (by omega)

/-- A byte below 0x80 is nowhere but in the encoding of the character that it is. -/
theorem eq_of_mem_utf8EncodeChar {c : Char} {b : UInt8}
    (member : b ∈ String.utf8EncodeChar c) (ascii : b.toNat < 0x80) :
    String.utf8EncodeChar c = [b] ∧ c.val.toNat = b.toNat := by
  have short : c.val.toNat ≤ 0x7F := by
    by_contra long
    have marked := le_of_mem_utf8EncodeChar (by omega) b member
    omega
  have single : String.utf8EncodeChar c = [UInt8.ofNat c.val.toNat] := by
    unfold String.utf8EncodeChar
    dsimp only
    rw [if_pos short]
  rw [single, List.mem_singleton] at member
  rw [single, member, UInt8.toNat_ofNat']
  exact ⟨rfl, by omega⟩

theorem pieces_encode (chars : List Char) (rest : List UInt8) :
    pieces (encode chars ++ rest) = chars.map some ++ pieces rest := by
  induction chars with
  | nil => rfl
  | cons c chars ih =>
      simp only [encode, List.flatMap_cons, List.append_assoc, List.map_cons, List.cons_append]
      rw [pieces_utf8EncodeChar]
      exact congrArg (some c :: ·) ih

theorem decodeLossy_encode (chars : List Char) : decodeLossy (encode chars) = chars := by
  have whole := pieces_encode chars []
  rw [List.append_nil, pieces_nil, List.append_nil] at whole
  simp [decodeLossy, whole]

@[simp] theorem lossy_of_text (s : String) : lossy s = s := by
  rw [lossy, decodeLossy_encode, String.ofList_toList]

/-- A piece takes a byte at least. -/
theorem length_pieces_le (bytes : List UInt8) : (pieces bytes).length ≤ bytes.length := by
  fun_induction pieces bytes with
  | case1 => simp
  | case2 b rest _ ih =>
      simp only [List.length_cons]
      omega
  | case3 b rest _ _ ih =>
      simp only [List.length_cons]
      omega
  | case4 b rest _ l _ ih =>
      have shorter := length_continuation l.count l.low l.high l.bits rest
      simp only [List.length_cons]
      omega

/-- Continuation bytes are read alike when more bytes follow, unless they ran out. -/
theorem continuation_append (count : Nat) (low high : UInt8) (bits : Nat)
    (front back : List UInt8) :
    (continuation count low high bits (front ++ back)).2 =
        (continuation count low high bits front).2 ++ back ∨
      (continuation count low high bits front).2 = [] := by
  induction count generalizing low high bits front with
  | zero => exact Or.inl rfl
  | succ count ih =>
      cases front with
      | nil => exact Or.inr rfl
      | cons b front =>
          rw [List.cons_append, continuation, continuation]
          split
          · exact ih _ _ _ front
          · exact Or.inl rfl

/-- More bytes make no fewer pieces: only the last piece can grow, and it stays one. -/
theorem length_pieces_append_le (front back : List UInt8) :
    (pieces front).length ≤ (pieces (front ++ back)).length := by
  fun_induction pieces front with
  | case1 => exact Nat.zero_le _
  | case2 b rest ascii ih =>
      rw [List.cons_append, pieces_ascii _ _ ascii]
      exact Nat.succ_le_succ ih
  | case3 b rest marked none ih =>
      rw [List.cons_append, pieces, if_neg marked, none]
      exact Nat.succ_le_succ ih
  | case4 b rest marked l lead ih =>
      rw [List.cons_append, pieces, if_neg marked, lead]
      apply Nat.succ_le_succ
      rcases continuation_append l.count l.low l.high l.bits rest back with whole | out
      · rw [whole]
        exact ih
      · rw [out, pieces_nil]
        exact Nat.zero_le _

theorem length_decodeLossy_le_of_prefix {front bytes : List UInt8} (begins : front <+: bytes) :
    (decodeLossy front).length ≤ (decodeLossy bytes).length := by
  obtain ⟨back, rfl⟩ := begins
  rw [length_decodeLossy, length_decodeLossy]
  exact length_pieces_append_le front back

end LintReport.Utf8
