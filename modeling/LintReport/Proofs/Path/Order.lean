import LintReport.Path

set_option autoImplicit false

/- The order of paths is a linear order on lists of parts, and that of names one on bytes. -/
namespace LintReport

namespace FileName

theorem isLE_total (a b : FileName) :
    ((Ord.compare a b).isLE || (Ord.compare b a).isLE) = true := by
  have swapped : Ord.compare b a = (Ord.compare a b).swap := Std.OrientedCmp.eq_swap
  rw [swapped]
  cases Ord.compare a b <;> rfl

theorem lt_asymm {a b : FileName} (before : Ord.compare a b = .lt) : Ord.compare b a ≠ .lt := by
  rw [Std.OrientedCmp.gt_of_lt before]
  decide

theorem lt_of_isLE_of_ne {a b : FileName} (before : (Ord.compare a b).isLE = true)
    (other : a ≠ b) : Ord.compare a b = .lt := by
  cases order : Ord.compare a b with
  | lt => rfl
  | eq => exact absurd (Std.LawfulEqOrd.eq_of_compare order) other
  | gt =>
      rw [order] at before
      cases before

end FileName

namespace Path

/-- The kind of a part, as a number in the order of the kinds. -/
def Part.kind : Part → Nat
  | .root => 0
  | .current => 1
  | .parent => 2
  | .name _ => 3

theorem Part.compare_eq :
    Part.compare = compareLex (compareOn Part.kind) (compareOn Part.bytes) := by
  funext a b
  cases a <;> cases b <;> rfl

instance : Std.TransCmp Part.compare := by
  rw [Part.compare_eq]
  infer_instance

theorem Part.eq_of_compare {a b : Part} (equal : a.compare b = .eq) : a = b := by
  rw [Part.compare_eq, compareLex_eq_eq] at equal
  obtain ⟨kind, bytes⟩ := equal
  have kind' : a.kind = b.kind := Std.LawfulEqOrd.eq_of_compare kind
  have bytes' : a.bytes = b.bytes := Std.LawfulEqOrd.eq_of_compare bytes
  cases a <;> cases b <;> simp_all [Part.kind, Part.bytes]

instance : Std.LawfulEqCmp Part.compare where
  compare_self := Std.ReflCmp.compare_self
  eq_of_compare := Part.eq_of_compare

theorem compareParts_eq : compareParts = List.compareLex Part.compare := by
  funext as bs
  induction as generalizing bs with
  | nil => cases bs <;> rfl
  | cons a as ih =>
      cases bs with
      | nil => rfl
      | cons b bs =>
          rw [compareParts, List.compareLex_cons_cons, ih]

instance : Std.TransCmp compareParts := by
  rw [compareParts_eq]
  infer_instance

instance : Std.LawfulEqCmp compareParts := by
  rw [compareParts_eq]
  infer_instance

theorem compare_eq_iff_same (p q : Path) : p.compare q = .eq ↔ Same p q := by
  change compareParts p.parts q.parts = .eq ↔ p.parts = q.parts
  exact Std.LawfulEqCmp.compare_eq_iff_eq

theorem compare_trans {p q r : Path} (first : p.compare q = .lt) (second : q.compare r = .lt) :
    p.compare r = .lt := by
  change compareParts p.parts q.parts = .lt at first
  change compareParts q.parts r.parts = .lt at second
  change compareParts p.parts r.parts = .lt
  exact Std.TransCmp.lt_trans first second

theorem compare_swap {p q : Path} (after : p.compare q = .gt) : q.compare p = .lt := by
  change compareParts p.parts q.parts = .gt at after
  change compareParts q.parts p.parts = .lt
  exact Std.OrientedCmp.lt_of_gt after

theorem compare_ne_gt_trans {p q r : Path} (first : p.compare q ≠ .gt)
    (second : q.compare r ≠ .gt) : p.compare r ≠ .gt := by
  have first' : (compareParts p.parts q.parts).isLE = true := Ordering.isLE_iff_ne_gt.mpr first
  have second' : (compareParts q.parts r.parts).isLE = true := Ordering.isLE_iff_ne_gt.mpr second
  have both : (compareParts p.parts r.parts).isLE = true := Std.TransCmp.isLE_trans first' second'
  exact Ordering.isLE_iff_ne_gt.mp both

theorem compare_ne_gt_total (p q : Path) : p.compare q ≠ .gt ∨ q.compare p ≠ .gt := by
  by_cases after : p.compare q = .gt
  · right
    rw [compare_swap after]
    decide
  · exact Or.inl after

theorem compare_eq_lt {p q : Path} (before : p.compare q ≠ .gt) (other : ¬ Same p q) :
    p.compare q = .lt := by
  cases order : p.compare q with
  | lt => rfl
  | eq => exact absurd ((compare_eq_iff_same p q).mp order) other
  | gt => exact absurd order before

theorem not_same_of_lt {p q : Path} (before : p.compare q = .lt) : ¬ Same p q := by
  intro same
  rw [(compare_eq_iff_same p q).mpr same] at before
  cases before

end Path

end LintReport
