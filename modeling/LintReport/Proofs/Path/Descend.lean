import LintReport.Proofs.Path.Absolute
import LintReport.Proofs.Path.Order

set_option autoImplicit false

/- Paths that go on by names. Their parts go on by the same names, so among the paths below one
directory the order is that of the names: a directory comes before those below it, and those below
it come before the next one beside it. -/
namespace LintReport.Path

theorem relativeParts_append_slash (front back : List UInt8) :
    relativeParts (front ++ separator :: back) = relativeParts front ++ relativeParts back := by
  rw [relativeParts, Text.splitOn_append_cons, List.filterMap_append]
  rfl

/-- A slash parts a path, unless nothing stands in front of it. -/
theorem partsOf_append_slash {front : List UInt8} (filled : front ≠ []) (back : List UInt8) :
    partsOf (front ++ separator :: back) = partsOf front ++ relativeParts back := by
  obtain ⟨c, front, rfl⟩ := List.exists_cons_of_ne_nil filled
  by_cases root : c = separator
  · rw [root, List.cons_append, partsOf_separator, partsOf_separator, relativeParts_append_slash,
      List.cons_append]
  · by_cases dot : c = period ∧ (front = [] ∨ front.head? = some separator)
    · obtain ⟨rfl, rfl | slash⟩ := dot
      · rfl
      · obtain ⟨rest, rfl⟩ := List.head?_eq_some_iff.mp slash
        rw [List.cons_append, List.cons_append, partsOf_period, partsOf_period,
          relativeParts_append_slash, List.cons_append]
    · have longer : ¬ (c = period ∧
          (front ++ separator :: back = [] ∨ (front ++ separator :: back).head? = some separator)) := by
        cases front with
        | nil => exact fun both => dot ⟨both.1, Or.inl rfl⟩
        | cons d front => simpa using dot
      rw [partsOf_plain root dot, List.cons_append, partsOf_plain root longer, ← List.cons_append,
        relativeParts_append_slash]

theorem inner_name {n : FileName} (named : IsName n) : ∀ part ∈ [Part.name n], part.Inner :=
  List.forall_mem_singleton.mpr (.name named)

theorem partsOf_name {n : FileName} (named : IsName n) : partsOf n = [.name n] := by
  simpa [spelled, Part.bytes] using partsOf_spelled (inner_name named)

theorem relativeParts_name {n : FileName} (named : IsName n) : relativeParts n = [.name n] := by
  simpa [spelled, Part.bytes] using relativeParts_spelled (inner_name named)

/-- A child has one part more, however its folder is spelled. -/
theorem parts_child (p : Path) {n : FileName} (named : IsName n) :
    (p.child n).parts = p.parts ++ [.name n] := by
  have relative := named.isAbsolute
  rw [child, parts, parts]
  by_cases empty : p.bytes = []
  · rw [join_of_empty empty, partsOf_name named, empty]
    rfl
  · by_cases slash : p.bytes.getLast? = some separator
    · rw [bytes_join_of_slash relative slash]
      obtain ⟨front, bytes⟩ := List.getLast?_eq_some_iff.mp slash
      have longer : front ++ [separator] ++ n = front ++ separator :: n :=
        List.append_assoc front [separator] n
      rw [bytes, longer]
      by_cases root : front = []
      · rw [root, List.nil_append, List.nil_append, partsOf_separator, partsOf_separator,
          relativeParts_name named]
        rfl
      · have nothing : relativeParts [] = [] := rfl
        rw [partsOf_append_slash root, partsOf_append_slash root, relativeParts_name named, nothing,
          List.append_nil]
    · rw [bytes_join_of_no_slash relative empty slash, partsOf_append_slash empty,
        relativeParts_name named]

/-- Where some names in turn lead, the outermost in front. -/
def descend (base : Path) (way : List FileName) : Path := way.foldl child base

@[simp] theorem descend_nil (base : Path) : base.descend [] = base := rfl

@[simp] theorem descend_cons (base : Path) (name : FileName) (way : List FileName) :
    base.descend (name :: way) = (base.child name).descend way := rfl

theorem descend_append (base : Path) (way more : List FileName) :
    base.descend (way ++ more) = (base.descend way).descend more := List.foldl_append

theorem parts_descend (base : Path) {way : List FileName} (named : ∀ n ∈ way, IsName n) :
    (base.descend way).parts = base.parts ++ way.map Part.name := by
  induction way generalizing base with
  | nil => simp
  | cons name way ih =>
      obtain ⟨first, others⟩ := List.forall_mem_cons.mp named
      rw [descend_cons, ih (base.child name) others, parts_child base first, List.append_assoc]
      rfl

theorem IsRooted.descend {base : Path} (rooted : base.IsRooted) {way : List FileName}
    (named : ∀ n ∈ way, IsName n) : (base.descend way).IsRooted := by
  induction way generalizing base with
  | nil => exact rooted
  | cons name way ih =>
      obtain ⟨first, others⟩ := List.forall_mem_cons.mp named
      exact ih (rooted.child first) others

theorem compareParts_append_left (front a b : List Part) :
    compareParts (front ++ a) (front ++ b) = compareParts a b := by
  induction front with
  | nil => rfl
  | cons part front ih =>
      have same : part.compare part = .eq := Std.ReflCmp.compare_self
      rw [List.cons_append, List.cons_append, compareParts, same, ih]
      rfl

/-- A directory comes before those below it. -/
theorem compare_descend (base : Path) {way : List FileName} (named : ∀ n ∈ way, IsName n)
    (deeper : way ≠ []) : base.compare (base.descend way) = .lt := by
  have start := compareParts_append_left base.parts [] (way.map Part.name)
  obtain ⟨name, way, rfl⟩ := List.exists_cons_of_ne_nil deeper
  rw [List.append_nil] at start
  rw [compare, parts_descend base named, start]
  rfl

/-- What lies below a directory comes before what lies below one beside it with a larger name. -/
theorem compare_descend_of_lt (base : Path) {a b : FileName} (smaller : Ord.compare a b = .lt)
    {way way' : List FileName} (named : ∀ n ∈ a :: way, IsName n)
    (named' : ∀ n ∈ b :: way', IsName n) :
    (base.descend (a :: way)).compare (base.descend (b :: way')) = .lt := by
  rw [compare, parts_descend base named, parts_descend base named', compareParts_append_left,
    List.map_cons, List.map_cons, compareParts, Part.compare, smaller]
  rfl

end LintReport.Path
