import LintReport.Proofs.MapM
import LintReport.Proofs.Text.Utf8

set_option autoImplicit false

/- Strict reading. Bytes are read as a text just if they are its encoding: the bounds that a lead
byte sets leave one way to write each character. -/
namespace LintReport.Utf8

/-- What a lead byte announces: the bounds keep out what fewer bytes can say, the surrogates, and
what lies above the last code point. -/
inductive Announces (b : UInt8) (l : Lead) : Prop
  | two (count : l.count = 1) (bits : l.bits + 0xC0 = b.toNat)
      (low : 0x80 ≤ l.low.toNat) (high : l.high.toNat ≤ 0xBF)
      (long : 2 ≤ l.bits) (short : l.bits < 32)
  | three (count : l.count = 2) (bits : l.bits + 0xE0 = b.toNat)
      (low : 0x80 ≤ l.low.toNat) (high : l.high.toNat ≤ 0xBF) (short : l.bits < 16)
      (long : l.bits = 0 → 0xA0 ≤ l.low.toNat) (scalar : l.bits = 13 → l.high.toNat ≤ 0x9F)
  | four (count : l.count = 3) (bits : l.bits + 0xF0 = b.toNat)
      (low : 0x80 ≤ l.low.toNat) (high : l.high.toNat ≤ 0xBF) (short : l.bits ≤ 4)
      (long : l.bits = 0 → 0x90 ≤ l.low.toNat) (scalar : l.bits = 4 → l.high.toNat ≤ 0x8F)

theorem Announces.low {b : UInt8} {l : Lead} (announces : Announces b l) : 0x80 ≤ l.low.toNat := by
  cases announces <;> assumption

theorem announces_of_lead? {b : UInt8} {l : Lead} (announced : lead? b = some l) :
    Announces b l := by
  have value := b.toNat_lt
  unfold lead? at announced
  simp only [UInt8.le_iff_toNat_le, ← UInt8.toNat_inj, UInt8.reduceToNat] at announced
  split at announced
  · cases announced
    exact .two rfl (by simp only; omega) (Nat.le_refl _) (Nat.le_refl _) (by simp only; omega)
      (by simp only; omega)
  split at announced
  · cases announced
    exact .three rfl (by simp only; omega) (by decide) (by decide) (by decide) (by decide) (by decide)
  split at announced
  · cases announced
    exact .three rfl (by simp only; omega) (by decide) (by decide) (by decide) (by decide) (by decide)
  split at announced
  · cases announced
    exact .three rfl (by simp only; omega) (Nat.le_refl _) (Nat.le_refl _) (by simp only; omega)
      (by simp only; omega) (by simp only; omega)
  split at announced
  · cases announced
    exact .four rfl (by simp only; omega) (by decide) (by decide) (by decide) (by decide) (by decide)
  split at announced
  · cases announced
    exact .four rfl (by simp only; omega) (by decide) (by decide) (by decide) (by decide) (by decide)
  split at announced
  · cases announced
    exact .four rfl (by simp only; omega) (Nat.le_refl _) (Nat.le_refl _) (by simp only; omega)
      (by simp only; omega) (by simp only; omega)
  · cases announced

/-- A sequence that is completed takes its next byte from within the bounds. -/
theorem continuation_eq_some {count : Nat} {low high : UInt8} {bits v : Nat}
    {rest left : List UInt8}
    (complete : continuation (count + 1) low high bits rest = (some v, left)) :
    ∃ c more, rest = c :: more ∧ low.toNat ≤ c.toNat ∧ c.toNat ≤ high.toNat ∧
      continuation count 0x80 0xBF (bits * 64 + (c.toNat - 0x80)) more = (some v, left) := by
  cases rest with
  | nil => cases complete
  | cons c more =>
      rw [continuation] at complete
      split at complete
      · next inside =>
          simp only [UInt8.le_iff_toNat_le] at inside
          exact ⟨c, more, rfl, inside.1, inside.2, complete⟩
      · cases complete

theorem ofNat_eq {b : UInt8} {n : Nat} (value : n = b.toNat) : UInt8.ofNat n = b := by
  rw [value, UInt8.ofNat_toNat]

theorem utf8EncodeChar_two {b c : UInt8} {v : Nat} (low : 0x80 ≤ v) (high : v < 0x800)
    (lead : v / 64 + 0xC0 = b.toNat) (next : v % 64 + 0x80 = c.toNat) :
    String.utf8EncodeChar (Char.ofNat v) = [b, c] := by
  have written : (Char.ofNat v).val.toNat = v := toNat_ofNat (Or.inl (by omega))
  simp only [String.utf8EncodeChar, written]
  rw [if_neg (by omega), if_pos (by omega), ofNat_eq (b := b) (by omega), ofNat_eq next]

theorem utf8EncodeChar_three {b c d : UInt8} {v : Nat} (low : 0x800 ≤ v) (high : v < 0x10000)
    (scalar : v < 0xD800 ∨ 0xDFFF < v) (lead : v / 4096 + 0xE0 = b.toNat)
    (next : v / 64 % 64 + 0x80 = c.toNat) (last : v % 64 + 0x80 = d.toNat) :
    String.utf8EncodeChar (Char.ofNat v) = [b, c, d] := by
  have valid : v.isValidChar := by
    unfold Nat.isValidChar
    omega
  have written : (Char.ofNat v).val.toNat = v := toNat_ofNat valid
  simp only [String.utf8EncodeChar, written]
  rw [if_neg (by omega), if_neg (by omega), if_pos (by omega), ofNat_eq (b := b) (by omega),
    ofNat_eq next, ofNat_eq last]

theorem utf8EncodeChar_four {b c d e : UInt8} {v : Nat} (low : 0x10000 ≤ v) (high : v < 0x110000)
    (lead : v / 262144 + 0xF0 = b.toNat) (next : v / 4096 % 64 + 0x80 = c.toNat)
    (third : v / 64 % 64 + 0x80 = d.toNat) (last : v % 64 + 0x80 = e.toNat) :
    String.utf8EncodeChar (Char.ofNat v) = [b, c, d, e] := by
  have written : (Char.ofNat v).val.toNat = v := toNat_ofNat (Or.inr ⟨by omega, high⟩)
  simp only [String.utf8EncodeChar, written]
  rw [if_neg (by omega), if_neg (by omega), if_neg (by omega), ofNat_eq (b := b) (by omega),
    ofNat_eq next, ofNat_eq third, ofNat_eq last]

/-- A completed sequence is the encoding of the character that it stands for. -/
theorem utf8EncodeChar_of_continuation {b : UInt8} {l : Lead} {v : Nat} {rest left : List UInt8}
    (announced : lead? b = some l)
    (complete : continuation l.count l.low l.high l.bits rest = (some v, left)) :
    String.utf8EncodeChar (Char.ofNat v) ++ left = b :: rest := by
  cases announces_of_lead? announced with
  | two count bits low high long short =>
      rw [count] at complete
      obtain ⟨c, _, rfl, from₁, upto₁, complete⟩ := continuation_eq_some complete
      simp only [continuation, Prod.mk.injEq, Option.some.injEq] at complete
      obtain ⟨value, rfl⟩ := complete
      rw [utf8EncodeChar_two (b := b) (c := c) (by omega) (by omega) (by omega) (by omega)]
      rfl
  | three count bits low high short long scalar =>
      rw [count] at complete
      obtain ⟨c, _, rfl, from₁, upto₁, complete⟩ := continuation_eq_some complete
      obtain ⟨d, _, rfl, from₂, upto₂, complete⟩ := continuation_eq_some complete
      simp only [continuation, Prod.mk.injEq, Option.some.injEq] at complete
      obtain ⟨value, rfl⟩ := complete
      simp only [UInt8.reduceToNat] at from₂ upto₂
      rw [utf8EncodeChar_three (b := b) (c := c) (d := d) (by omega) (by omega) (by omega)
        (by omega) (by omega) (by omega)]
      rfl
  | four count bits low high short long scalar =>
      rw [count] at complete
      obtain ⟨c, _, rfl, from₁, upto₁, complete⟩ := continuation_eq_some complete
      obtain ⟨d, _, rfl, from₂, upto₂, complete⟩ := continuation_eq_some complete
      obtain ⟨e, _, rfl, from₃, upto₃, complete⟩ := continuation_eq_some complete
      simp only [continuation, Prod.mk.injEq, Option.some.injEq] at complete
      obtain ⟨value, rfl⟩ := complete
      simp only [UInt8.reduceToNat] at from₂ upto₂ from₃ upto₃
      rw [utf8EncodeChar_four (b := b) (c := c) (d := d) (e := e) (by omega) (by omega) (by omega)
        (by omega) (by omega) (by omega)]
      rfl

theorem utf8EncodeChar_of_ascii {b : UInt8} (ascii : b < 0x80) :
    String.utf8EncodeChar (Char.ofNat b.toNat) = [b] := by
  simp only [UInt8.lt_iff_toNat_lt, UInt8.reduceToNat] at ascii
  have written : (Char.ofNat b.toNat).val.toNat = b.toNat := toNat_ofNat (Or.inl (by omega))
  simp only [String.utf8EncodeChar, written]
  rw [if_pos (by omega), UInt8.ofNat_toNat]

/-- Bytes without an ill-formed piece are the encoding of their characters. -/
theorem encode_of_pieces {bytes : List UInt8} {chars : List Char}
    (wellFormed : pieces bytes = chars.map some) : encode chars = bytes := by
  fun_induction pieces bytes generalizing chars with
  | case1 =>
      rw [List.map_eq_nil_iff.mp wellFormed.symm]
      rfl
  | case2 b rest ascii ih =>
      obtain ⟨c, chars, rfl, first, later⟩ := List.map_eq_cons_iff.mp wellFormed.symm
      obtain rfl := Option.some.inj first
      rw [encode, List.flatMap_cons, utf8EncodeChar_of_ascii ascii]
      exact congrArg (b :: ·) (ih later.symm)
  | case3 b rest marked unannounced ih =>
      obtain ⟨c, chars, rfl, first, later⟩ := List.map_eq_cons_iff.mp wellFormed.symm
      cases first
  | case4 b rest marked l announced ih =>
      obtain ⟨c, chars, rfl, first, later⟩ := List.map_eq_cons_iff.mp wellFormed.symm
      obtain ⟨v, complete, rfl⟩ := Option.map_eq_some_iff.mp first.symm
      have written := utf8EncodeChar_of_continuation announced (Prod.ext complete rfl)
      rw [encode, List.flatMap_cons, ← written]
      exact congrArg (_ ++ ·) (ih later.symm)

theorem decode?_eq_some_iff {bytes : List UInt8} {chars : List Char} :
    decode? bytes = some chars ↔ encode chars = bytes := by
  have whole : decode? bytes = some chars ↔ pieces bytes = chars.map some := by
    rw [decode?, mapM_eq_some_iff, ← List.forall₂_eq_eq_eq, List.forall₂_map_right_iff]
    rfl
  rw [whole]
  constructor
  · exact encode_of_pieces
  · rintro rfl
    have whole := pieces_encode chars []
    rwa [List.append_nil, pieces_nil, List.append_nil] at whole

/-- A path, or what else is kept as bytes, has a text just if it is that text's bytes. -/
theorem text?_eq_some_iff {bytes : List UInt8} {s : String} : text? bytes = some s ↔ s = bytes := by
  rw [text?, Option.map_eq_some_iff]
  constructor
  · rintro ⟨chars, read, rfl⟩
    rw [String.toList_ofList]
    exact decode?_eq_some_iff.mp read
  · intro written
    exact ⟨s.toList, decode?_eq_some_iff.mpr written, String.ofList_toList⟩

@[simp] theorem text?_of_text (s : String) : text? s = some s := text?_eq_some_iff.mpr rfl

end LintReport.Utf8
