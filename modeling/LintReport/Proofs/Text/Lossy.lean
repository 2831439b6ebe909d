import LintReport.Proofs.Text.Strict

set_option autoImplicit false

/- Lenient reading and the characters of one byte. Such a byte ends whatever stands in front of it,
so reading goes on behind it afresh; and such a character is read from nothing but its own byte. -/
namespace LintReport.Utf8

/-! Reading stops at a byte below 0x80. -/

theorem continuation_append_ascii {count : Nat} {low high : UInt8} (bits : Nat)
    (front rest : List UInt8) {b : UInt8} (ascii : b < 0x80) (marked : 0x80 ≤ low.toNat) :
    continuation count low high bits (front ++ b :: rest) =
      ((continuation count low high bits front).1,
        (continuation count low high bits front).2 ++ b :: rest) := by
  induction count generalizing low high bits front with
  | zero => rfl
  | succ count ih =>
      cases front with
      | nil =>
          have outside : ¬ (low ≤ b ∧ b ≤ high) := by
            simp only [UInt8.le_iff_toNat_le, UInt8.lt_iff_toNat_lt, UInt8.reduceToNat] at ascii ⊢
            omega
          simp only [List.nil_append, continuation, if_neg outside]
      | cons c front =>
          rw [List.cons_append, continuation, continuation]
          split
          · exact ih _ front (by decide)
          · rfl

theorem pieces_append_ascii (front rest : List UInt8) {b : UInt8} (ascii : b < 0x80) :
    pieces (front ++ b :: rest) = pieces front ++ some (Char.ofNat b.toNat) :: pieces rest := by
  fun_induction pieces front with
  | case1 => exact pieces_ascii b rest ascii
  | case2 c front first ih => rw [List.cons_append, pieces_ascii c _ first, ih, List.cons_append]
  | case3 c front marked unannounced ih =>
      rw [List.cons_append, pieces, if_neg marked, unannounced]
      exact congrArg (_ :: ·) ih
  | case4 c front marked l announced ih =>
      have stops := @continuation_append_ascii l.count l.low l.high l.bits front rest b ascii
        (announces_of_lead? announced).low
      rw [List.cons_append, pieces, if_neg marked, announced]
      dsimp only
      rw [stops]
      exact congrArg (_ :: ·) ih

theorem decodeLossy_append_ascii (front rest : List UInt8) {b : UInt8} (ascii : b < 0x80) :
    decodeLossy (front ++ b :: rest) =
      decodeLossy front ++ Char.ofNat b.toNat :: decodeLossy rest := by
  rw [decodeLossy, pieces_append_ascii front rest ascii, List.map_append]
  rfl

theorem suffix_continuation (count : Nat) (low high : UInt8) (bits : Nat) (rest : List UInt8) :
    (continuation count low high bits rest).2 <:+ rest := by
  induction count generalizing low high bits rest with
  | zero => exact List.suffix_refl rest
  | succ count ih =>
      cases rest with
      | nil => exact List.suffix_refl []
      | cons b rest =>
          rw [continuation]
          split
          · exact (ih _ _ _ rest).trans (List.suffix_cons b rest)
          · exact List.suffix_refl (b :: rest)

/-! A character of one byte is read from that byte. -/

/-- A character of one byte. -/
def IsAscii (c : Char) : Prop := c.toNat < 0x80

instance (c : Char) : Decidable (IsAscii c) := inferInstanceAs (Decidable (_ < _))

theorem isAscii_of_all {cs : List Char} (all : (cs.all fun c => decide (IsAscii c)) = true) :
    ∀ c ∈ cs, IsAscii c :=
  fun c member => of_decide_eq_true (List.all_eq_true.mp all c member)

def asciiByte (c : Char) : UInt8 := UInt8.ofNat c.toNat

theorem asciiByte_ofNat {b : UInt8} (ascii : b < 0x80) : asciiByte (Char.ofNat b.toNat) = b := by
  have short : b.toNat < 0x80 := by simpa [UInt8.lt_iff_toNat_lt] using ascii
  have scalar : b.toNat.isValidChar := Or.inl (by omega)
  rw [asciiByte, toNat_ofNat scalar, UInt8.ofNat_toNat]

theorem asciiByte_lt {c : Char} (ascii : IsAscii c) : asciiByte c < 0x80 := by
  have short : c.toNat < 0x80 := ascii
  rw [UInt8.lt_iff_toNat_lt, asciiByte, UInt8.toNat_ofNat']
  simp only [UInt8.reduceToNat]
  omega

theorem encode_cons_ascii {c : Char} (ascii : IsAscii c) (cs : List Char) :
    encode (c :: cs) = asciiByte c :: encode cs := by
  have single : String.utf8EncodeChar c = [asciiByte c] := by
    have one : c.val.toNat ≤ 0x7F := Nat.le_of_lt_succ ascii
    simp only [String.utf8EncodeChar, if_pos one]
    rfl
  rw [encode, List.flatMap_cons, single]
  rfl

theorem not_isAscii_replacement : ¬ IsAscii replacement := by decide

/-- What is read from a sequence of several bytes is no character of one. -/
theorem not_isAscii_lead {b : UInt8} {l : Lead} {rest : List UInt8} (marked : ¬ b < 0x80)
    (announced : lead? b = some l) :
    ¬ IsAscii (((continuation l.count l.low l.high l.bits rest).1.map Char.ofNat).getD
      replacement) := by
  cases complete : (continuation l.count l.low l.high l.bits rest).1 with
  | none => exact not_isAscii_replacement
  | some v =>
      intro ascii
      have written := utf8EncodeChar_of_continuation announced (Prod.ext complete rfl)
      have single := encode_cons_ascii ascii []
      rw [encode, List.flatMap_singleton] at single
      rw [Option.map_some, Option.getD_some] at single
      rw [single] at written
      exact marked ((List.cons.inj written).1 ▸ asciiByte_lt ascii)

theorem decodeLossy_eq_cons {bytes : List UInt8} {c : Char} {cs : List Char} (ascii : IsAscii c)
    (read : decodeLossy bytes = c :: cs) :
    ∃ rest, bytes = asciiByte c :: rest ∧ decodeLossy rest = cs := by
  unfold decodeLossy at read
  fun_cases pieces bytes with
  | case1 =>
      rw [pieces_nil] at read
      cases read
  | case2 b rest short =>
      rw [pieces_ascii b rest short] at read
      obtain ⟨rfl, behind⟩ := List.cons.inj read
      exact ⟨rest, congrArg (· :: rest) (asciiByte_ofNat short).symm, behind⟩
  | case3 b rest marked unannounced =>
      rw [pieces, if_neg marked, unannounced] at read
      obtain ⟨rfl, -⟩ := List.cons.inj read
      exact absurd ascii not_isAscii_replacement
  | case4 b rest marked l announced =>
      rw [pieces, if_neg marked, announced] at read
      obtain ⟨rfl, -⟩ := List.cons.inj read
      exact absurd ascii (not_isAscii_lead marked announced)

theorem pieces_ne_nil (b : UInt8) (rest : List UInt8) : pieces (b :: rest) ≠ [] := by
  rw [pieces]
  split
  · exact List.cons_ne_nil _ _
  · split <;> exact List.cons_ne_nil _ _

/-- Characters of one byte are read from their own bytes alone. -/
theorem eq_encode_of_decodeLossy {bytes : List UInt8} {cs : List Char}
    (ascii : ∀ c ∈ cs, IsAscii c) (read : decodeLossy bytes = cs) : bytes = encode cs := by
  induction cs generalizing bytes with
  | nil =>
      cases bytes with
      | nil => rfl
      | cons b rest => exact absurd (List.map_eq_nil_iff.mp read) (pieces_ne_nil b rest)
  | cons c cs ih =>
      obtain ⟨here, later⟩ := List.forall_mem_cons.mp ascii
      obtain ⟨rest, rfl, behind⟩ := decodeLossy_eq_cons here read
      rw [encode_cons_ascii here, ← ih later behind]

theorem mem_of_mem_decodeLossy {bytes : List UInt8} {c : Char} (ascii : IsAscii c)
    (member : c ∈ decodeLossy bytes) : asciiByte c ∈ bytes := by
  unfold decodeLossy at member
  fun_induction pieces bytes with
  | case1 => cases member
  | case2 b rest short ih =>
      rcases List.mem_cons.mp member with rfl | later
      · exact (asciiByte_ofNat short).symm ▸ List.mem_cons_self
      · exact List.mem_cons_of_mem b (ih later)
  | case3 b rest marked unannounced ih =>
      rcases List.mem_cons.mp member with rfl | later
      · exact absurd ascii not_isAscii_replacement
      · exact List.mem_cons_of_mem b (ih later)
  | case4 b rest marked l announced ih =>
      rcases List.mem_cons.mp member with rfl | later
      · exact absurd ascii (not_isAscii_lead marked announced)
      · refine List.mem_cons_of_mem b ((suffix_continuation _ _ _ _ rest).subset (ih later))

theorem encode_injective : Function.Injective encode :=
  Function.LeftInverse.injective decodeLossy_encode

end LintReport.Utf8
