set_option autoImplicit false

/- UTF-8 between bytes and characters. Ill-formed bytes are cut into maximal
pieces: a piece is the longest prefix that some well-formed sequence begins
with, or a single byte when there is none. Reading leniently puts one
replacement character where a piece stood; reading strictly refuses it. -/
namespace LintReport.Utf8

/-- What a lead byte announces: how many bytes follow, where the first of them
must lie, and the bits that the lead byte itself contributes. -/
structure Lead where
  count : Nat
  low : UInt8
  high : UInt8
  bits : Nat
  deriving Repr, DecidableEq

def lead? (b : UInt8) : Option Lead :=
  if 0xC2 ≤ b ∧ b ≤ 0xDF then some ⟨1, 0x80, 0xBF, b.toNat - 0xC0⟩
  else if b = 0xE0 then some ⟨2, 0xA0, 0xBF, 0⟩
  else if b = 0xED then some ⟨2, 0x80, 0x9F, 0xD⟩
  else if 0xE1 ≤ b ∧ b ≤ 0xEF then some ⟨2, 0x80, 0xBF, b.toNat - 0xE0⟩
  else if b = 0xF0 then some ⟨3, 0x90, 0xBF, 0⟩
  else if b = 0xF4 then some ⟨3, 0x80, 0x8F, 4⟩
  else if 0xF1 ≤ b ∧ b ≤ 0xF3 then some ⟨3, 0x80, 0xBF, b.toNat - 0xF0⟩
  else none

/-- Reads up to `count` continuation bytes, the first between `low` and `high`.
Gives the completed scalar value, if all were there, and the bytes left. -/
def continuation : (count : Nat) → (low high : UInt8) → (bits : Nat) → List UInt8 →
    Option Nat × List UInt8
  | 0, _, _, bits, rest => (some bits, rest)
  | _ + 1, _, _, _, [] => (none, [])
  | count + 1, low, high, bits, b :: rest =>
      if low ≤ b ∧ b ≤ high then
        continuation count 0x80 0xBF (bits * 64 + (b.toNat - 0x80)) rest
      else (none, b :: rest)

theorem length_continuation (count : Nat) (low high : UInt8) (bits : Nat)
    (rest : List UInt8) :
    (continuation count low high bits rest).2.length ≤ rest.length := by
  induction count generalizing low high bits rest with
  | zero => simp [continuation]
  | succ count ih =>
      cases rest with
      | nil => simp [continuation]
      | cons b rest =>
          simp only [continuation]
          split
          · exact Nat.le_succ_of_le (ih _ _ _ _)
          · simp

/-- The pieces of a byte string: a character, or `none` for a maximal ill-formed
piece. -/
def pieces : List UInt8 → List (Option Char)
  | [] => []
  | b :: rest =>
      if b < 0x80 then some (Char.ofNat b.toNat) :: pieces rest
      else
        match lead? b with
        | none => none :: pieces rest
        | some l =>
            (continuation l.count l.low l.high l.bits rest).1.map Char.ofNat ::
              pieces (continuation l.count l.low l.high l.bits rest).2
  termination_by bytes => bytes.length
  decreasing_by
    · simp
    · simp
    · exact Nat.lt_succ_of_le (length_continuation _ _ _ _ _)

def replacement : Char := '\uFFFD'

/-- Lenient reading: each ill-formed piece becomes one replacement character. -/
def decodeLossy (bytes : List UInt8) : List Char :=
  (pieces bytes).map (·.getD replacement)

/-- Strict reading: refuses bytes that hold an ill-formed piece. -/
def decode? (bytes : List UInt8) : Option (List Char) :=
  (pieces bytes).mapM id

def encode (chars : List Char) : List UInt8 :=
  chars.flatMap String.utf8EncodeChar

/-- A text stands for its bytes. -/
instance coeText : Coe String (List UInt8) := ⟨fun s => encode s.toList⟩

def lossy (bytes : List UInt8) : String := String.ofList (decodeLossy bytes)

def text? (bytes : List UInt8) : Option String := (decode? bytes).map String.ofList

@[simp] theorem pieces_nil : pieces [] = [] := by simp [pieces]

theorem pieces_ascii (b : UInt8) (rest : List UInt8) (h : b < 0x80) :
    pieces (b :: rest) = some (Char.ofNat b.toNat) :: pieces rest := by
  rw [pieces, if_pos h]

@[simp] theorem decodeLossy_ascii (b : UInt8) (rest : List UInt8) (h : b < 0x80) :
    decodeLossy (b :: rest) = Char.ofNat b.toNat :: decodeLossy rest := by
  rw [decodeLossy, pieces_ascii b rest h]
  rfl

theorem length_decodeLossy (bytes : List UInt8) :
    (decodeLossy bytes).length = (pieces bytes).length := by
  simp [decodeLossy]

@[simp] theorem encode_append (a b : List Char) : encode (a ++ b) = encode a ++ encode b := by
  simp [encode]

end LintReport.Utf8
