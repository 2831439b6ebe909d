import LintReport.Text.Utf8
import Mathlib.Data.List.TakeWhile

set_option autoImplicit false

/- Offsets in bytes into a text of characters. A text can be cut where a character starts, and
nowhere else. -/
namespace LintReport.Text

/-- How many bytes a text takes. -/
def byteLength (s : List Char) : Nat := (Utf8.encode s).length

@[simp] theorem byteLength_nil : byteLength [] = 0 := rfl

@[simp] theorem byteLength_append (a b : List Char) :
    byteLength (a ++ b) = byteLength a + byteLength b := by
  rw [byteLength, Utf8.encode_append, List.length_append, byteLength, byteLength]

@[simp] theorem byteLength_singleton (c : Char) : byteLength [c] = c.utf8Size := by
  rw [byteLength, Utf8.encode, List.flatMap_singleton, String.length_utf8EncodeChar]

@[simp] theorem byteLength_cons (c : Char) (s : List Char) :
    byteLength (c :: s) = c.utf8Size + byteLength s := by
  rw [← List.singleton_append, byteLength_append, byteLength_singleton]

/-- The parts of a text in front of and behind an offset in bytes; `none` where the offset lies
inside a character or behind the end. -/
def cutAt? : (offset : Nat) → List Char → Option (List Char × List Char)
  | 0, s => some ([], s)
  | _ + 1, [] => none
  | offset + 1, c :: s =>
      if c.utf8Size ≤ offset + 1 then
        (cutAt? (offset + 1 - c.utf8Size) s).map fun parts => (c :: parts.1, parts.2)
      else none

theorem cutAt?_byteLength (front back : List Char) :
    cutAt? (byteLength front) (front ++ back) = some (front, back) := by
  induction front with
  | nil => rw [byteLength_nil, List.nil_append, cutAt?]
  | cons c front ih =>
      have size : byteLength (c :: front) = (c.utf8Size + byteLength front - 1) + 1 := by
        have positive := c.utf8Size_pos
        rw [byteLength_cons]
        omega
      have left : c.utf8Size + byteLength front - 1 + 1 - c.utf8Size = byteLength front := by
        have positive := c.utf8Size_pos
        omega
      rw [size, List.cons_append, cutAt?, left, ih, if_pos (by omega)]
      rfl

theorem eq_of_cutAt? {offset : Nat} {s front back : List Char}
    (cut : cutAt? offset s = some (front, back)) :
    s = front ++ back ∧ byteLength front = offset := by
  induction s generalizing offset front with
  | nil =>
      cases offset with
      | zero =>
          cases cut
          exact ⟨rfl, rfl⟩
      | succ offset => cases cut
  | cons c s ih =>
      cases offset with
      | zero =>
          cases cut
          exact ⟨rfl, rfl⟩
      | succ offset =>
          rw [cutAt?] at cut
          split at cut
          · next fits =>
              obtain ⟨⟨front', back'⟩, deeper, equal⟩ := Option.map_eq_some_iff.mp cut
              cases equal
              obtain ⟨rfl, length⟩ := ih deeper
              refine ⟨rfl, ?_⟩
              rw [byteLength_cons, length]
              omega
          · cases cut

/-- A text can be cut where a character starts. -/
theorem cutAt?_of_eq {offset : Nat} {s front back : List Char} (parts : s = front ++ back)
    (length : offset = byteLength front) : cutAt? offset s = some (front, back) := by
  rw [parts, length, cutAt?_byteLength]

theorem le_byteLength_of_cutAt? {offset : Nat} {s : List Char} {parts : List Char × List Char}
    (cut : cutAt? offset s = some parts) : offset ≤ byteLength s := by
  obtain ⟨front, back⟩ := parts
  obtain ⟨equal, length⟩ := eq_of_cutAt? cut
  rw [equal, byteLength_append]
  omega

/-- The part of a text between two offsets. -/
def slice? (start stop : Nat) (s : List Char) : Option (List Char) :=
  (cutAt? stop s).bind fun (front, _) => (cutAt? start front).map Prod.snd

theorem slice?_byteLength (front inside back : List Char) :
    slice? (byteLength front) (byteLength (front ++ inside)) (front ++ inside ++ back) =
      some inside := by
  rw [slice?, cutAt?_byteLength, Option.bind_some]
  dsimp only
  rw [cutAt?_byteLength]
  rfl

/-- The offset of the first character with a property. -/
def offsetOf? (p : Char → Bool) : List Char → Option Nat
  | [] => none
  | c :: s => if p c then some 0 else (offsetOf? p s).map (· + c.utf8Size)

theorem offsetOf?_append {p : Char → Bool} {front : List Char}
    (others : ∀ c ∈ front, p c = false) {c : Char} (holds : p c = true) (back : List Char) :
    offsetOf? p (front ++ c :: back) = some (byteLength front) := by
  induction front with
  | nil =>
      rw [List.nil_append, offsetOf?, if_pos holds]
      rfl
  | cons d front ih =>
      obtain ⟨other, rest⟩ := List.forall_mem_cons.mp others
      rw [List.cons_append, offsetOf?, if_neg (by simp [other]), ih rest, Option.map_some,
        byteLength_cons, Nat.add_comm]

theorem offsetOf?_eq_none {p : Char → Bool} {s : List Char} (others : ∀ c ∈ s, p c = false) :
    offsetOf? p s = none := by
  induction s with
  | nil => rfl
  | cons c s ih =>
      obtain ⟨other, rest⟩ := List.forall_mem_cons.mp others
      rw [offsetOf?, if_neg (by simp [other]), ih rest]
      rfl

/-- The offset of the first character without a property, or the end of the text. -/
theorem getD_offsetOf? (p : Char → Bool) (s : List Char) :
    (offsetOf? (fun c => !p c) s).getD (byteLength s) = byteLength (s.takeWhile p) := by
  have front : ∀ c ∈ s.takeWhile p, (!p c) = false := by
    intro c member
    rw [List.mem_takeWhile_imp member, Bool.not_true]
  have parts : s.takeWhile p ++ s.dropWhile p = s := List.takeWhile_append_dropWhile
  cases back : s.dropWhile p with
  | nil =>
      rw [back, List.append_nil] at parts
      rw [parts] at front
      rw [offsetOf?_eq_none front, Option.getD_none, parts]
  | cons c rest =>
      have stop : (!p c) = true := by
        have first := List.head?_dropWhile_not p s
        rw [back] at first
        simpa using first
      have offset := offsetOf?_append front stop rest
      rw [← back, parts] at offset
      rw [offset, Option.getD_some]

end LintReport.Text
