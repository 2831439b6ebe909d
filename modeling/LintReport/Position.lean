set_option autoImplicit false

/- Zero-based coordinates in a text file. A character is a code point counted
from the start of its line, never a byte. -/
namespace LintReport

structure Position where
  line : UInt32
  character : UInt32
  deriving DecidableEq, Repr, Inhabited

namespace Position

def predecessor (n : UInt32) : UInt32 := if n = 0 then 0 else n - 1

/-- The position of a one-based line and column, as compilers print them. A zero
counts as the first line or column. -/
def ofOneBased (line column : UInt32) : Position :=
  ⟨predecessor line, predecessor column⟩

theorem toNat_predecessor (n : UInt32) : (predecessor n).toNat = n.toNat - 1 := by
  unfold predecessor
  split
  · next h => simp [h]
  · next h =>
      have hn : n.toNat ≠ 0 := fun h0 => h (UInt32.toNat_inj.mp h0)
      rw [UInt32.toNat_sub_of_le]
      · rfl
      · simp only [UInt32.le_iff_toNat_le, UInt32.toNat_one]; omega

def le (a b : Position) : Prop :=
  a.line < b.line ∨ a.line = b.line ∧ a.character ≤ b.character

instance : LE Position := ⟨le⟩

instance (a b : Position) : Decidable (a ≤ b) :=
  inferInstanceAs (Decidable (a.line < b.line ∨ a.line = b.line ∧ a.character ≤ b.character))

end Position

/-- A half-open span between two positions of one file. -/
structure Range where
  start : Position
  stop : Position
  deriving DecidableEq, Repr, Inhabited

def Range.point (p : Position) : Range := ⟨p, p⟩

end LintReport
