import LintReport.Position.LineIndex

set_option autoImplicit false

/- The line terminators of some bytes, read greedily from the left, and what the
scan for lines has to do with them: the lines are what lies between them. -/
namespace LintReport

/-- A line terminator as a span of bytes. -/
structure Terminator where
  start : Nat
  stop : Nat
  deriving DecidableEq, Repr

namespace Terminator

/-- The terminators of the bytes that follow offset `offset`. A carriage return and a
line feed behind it are one terminator; either of them alone is one, too. -/
def scan : (offset : Nat) → List UInt8 → List Terminator
  | _, [] => []
  | offset, 13 :: 10 :: rest => ⟨offset, offset + 2⟩ :: scan (offset + 2) rest
  | offset, b :: rest =>
      if b = 13 ∨ b = 10 then ⟨offset, offset + 1⟩ :: scan (offset + 1) rest
      else scan (offset + 1) rest

@[simp] theorem scan_nil (offset : Nat) : scan offset [] = [] := by
  rw [scan]

theorem scan_pair (offset : Nat) (rest : List UInt8) :
    scan offset (13 :: 10 :: rest) = ⟨offset, offset + 2⟩ :: scan (offset + 2) rest := by
  rw [scan]

theorem single_of_not_pair {α : Type} {cr lf a : α} {rest : List α}
    (pair : ∀ rest', a = cr → rest = lf :: rest' → False) :
    ¬ (a = cr ∧ rest.head? = some lf) := by
  intro both
  obtain ⟨rest', equal⟩ := List.head?_eq_some_iff.mp both.2
  exact pair rest' both.1 equal

/-- A byte that does not begin a pair. -/
theorem scan_cons (offset : Nat) (b : UInt8) (rest : List UInt8)
    (single : ¬ (b = 13 ∧ rest.head? = some 10)) :
    scan offset (b :: rest) =
      if b = 13 ∨ b = 10 then ⟨offset, offset + 1⟩ :: scan (offset + 1) rest
      else scan (offset + 1) rest := by
  rw [scan]
  intro rest' first second
  apply single
  rw [second]
  exact ⟨first, rfl⟩

/-- Where terminators may lie among `length` bytes behind `offset`. -/
def Within (offset length : Nat) (t : Terminator) : Prop :=
  offset ≤ t.start ∧ t.start < t.stop ∧ t.stop ≤ offset + length

theorem Within.mono {offset offset' length length' : Nat} {t : Terminator}
    (inside : Within offset' length' t) (starts : offset ≤ offset')
    (stops : offset' + length' ≤ offset + length) : Within offset length t := by
  unfold Within at inside ⊢
  omega

theorem within_first (offset width length : Nat) (positive : 0 < width) (fits : width ≤ length) :
    Within offset length ⟨offset, offset + width⟩ := by
  unfold Within
  dsimp only
  omega

theorem scan_within (offset : Nat) (bytes : List UInt8) :
    ∀ t ∈ scan offset bytes, Within offset bytes.length t := by
  fun_induction scan offset bytes with
  | case1 => simp
  | case2 offset rest ih =>
      rw [List.forall_mem_cons, List.length_cons, List.length_cons]
      constructor
      · exact within_first offset 2 _ (by omega) (by omega)
      · intro t later
        exact (ih t later).mono (by omega) (by omega)
  | case3 offset b rest _ _ ih =>
      rw [List.forall_mem_cons, List.length_cons]
      constructor
      · exact within_first offset 1 _ (by omega) (by omega)
      · intro t later
        exact (ih t later).mono (by omega) (by omega)
  | case4 offset b rest _ _ ih =>
      rw [List.length_cons]
      intro t member
      exact (ih t member).mono (by omega) (by omega)

/-- Terminators do not overlap and come in the order of their offsets. -/
theorem scan_pairwise (offset : Nat) (bytes : List UInt8) :
    (scan offset bytes).Pairwise fun t u => t.stop ≤ u.start := by
  fun_induction scan offset bytes with
  | case1 => exact List.Pairwise.nil
  | case2 offset rest ih =>
      exact ih.cons fun u later => (scan_within _ _ u later).1
  | case3 offset b rest _ _ ih =>
      exact ih.cons fun u later => (scan_within _ _ u later).1
  | case4 offset b rest _ _ ih => exact ih

theorem length_scan_le (offset : Nat) (bytes : List UInt8) :
    (scan offset bytes).length ≤ bytes.length := by
  fun_induction scan offset bytes <;> simp only [List.length_cons, List.length_nil] <;> omega

/-- The place between two texts does not part a carriage return from its line feed. -/
def Apart {α : Type} (cr lf : α) (front back : List α) : Prop :=
  ¬ (front.getLast? = some cr ∧ back.head? = some lf)

instance {α : Type} [DecidableEq α] (cr lf : α) (front back : List α) :
    Decidable (Apart cr lf front back) :=
  inferInstanceAs (Decidable (¬ (front.getLast? = some cr ∧ back.head? = some lf)))

theorem Apart.tail {α : Type} {cr lf a : α} {front back : List α}
    (apart : Apart cr lf (a :: front) back) : Apart cr lf front back := by
  intro cut
  apply apart
  rw [List.getLast?_cons, cut.1, Option.getD_some]
  exact ⟨rfl, cut.2⟩

theorem Apart.head {α : Type} {cr lf a : α} {front back : List α}
    (apart : Apart cr lf (a :: front) back) (single : ¬ (a = cr ∧ front.head? = some lf)) :
    ¬ (a = cr ∧ (front ++ back).head? = some lf) := by
  intro pair
  cases front with
  | nil => exact apart ⟨congrArg some pair.1, pair.2⟩
  | cons c front => exact single pair

/-- Bytes part into two texts wherever no pair is cut. -/
theorem scan_append (offset : Nat) (front back : List UInt8) (apart : Apart 13 10 front back) :
    scan offset (front ++ back) = scan offset front ++ scan (offset + front.length) back := by
  fun_induction scan offset front with
  | case1 => rfl
  | case2 offset rest ih =>
      have count : offset + (rest.length + 1 + 1) = offset + 2 + rest.length := by omega
      rw [List.cons_append, List.cons_append, scan_pair, ih apart.tail.tail, List.cons_append,
        List.length_cons, List.length_cons, count]
  | case3 offset b rest pair ends ih =>
      have single := apart.head (single_of_not_pair pair)
      have count : offset + (rest.length + 1) = offset + 1 + rest.length := by omega
      rw [List.cons_append, scan_cons _ _ _ single, if_pos ends, ih apart.tail,
        List.cons_append, List.length_cons, count]
  | case4 offset b rest pair inside ih =>
      have single := apart.head (single_of_not_pair pair)
      have count : offset + (rest.length + 1) = offset + 1 + rest.length := by omega
      rw [List.cons_append, scan_cons _ _ _ single, if_neg inside, ih apart.tail,
        List.length_cons, count]

theorem scan_eq_nil (offset : Nat) (bytes : List UInt8)
    (plain : ∀ b ∈ bytes, ¬ (b = 13 ∨ b = 10)) : scan offset bytes = [] := by
  induction bytes generalizing offset with
  | nil => exact scan_nil offset
  | cons b rest ih =>
      have inside : ¬ (b = 13 ∨ b = 10) := plain b List.mem_cons_self
      rw [scan_cons _ _ _ (fun both => inside (Or.inl both.1)), if_neg inside]
      exact ih _ fun c member => plain c (List.mem_cons_of_mem b member)

/-- Where the last of some terminators ends, or `start` if there is none. -/
def lastStop (start : Nat) (ts : List Terminator) : Nat :=
  (ts.getLast?.map Terminator.stop).getD start

@[simp] theorem lastStop_cons (start : Nat) (t : Terminator) (ts : List Terminator) :
    lastStop start (t :: ts) = lastStop t.stop ts := by
  unfold lastStop
  rw [List.getLast?_cons]
  cases ts.getLast? <;> rfl

/-- Bytes that end in a terminator end where it ends. -/
theorem lastStop_scan (offset start : Nat) (bytes : List UInt8) (b : UInt8)
    (last : bytes.getLast? = some b) (ends : b = 13 ∨ b = 10) :
    lastStop start (scan offset bytes) = offset + bytes.length := by
  fun_induction scan offset bytes generalizing start with
  | case1 => simp at last
  | case2 offset rest ih =>
      rw [lastStop_cons, List.length_cons, List.length_cons]
      cases rest with
      | nil => rfl
      | cons c rest =>
          rw [ih _ last]
          omega
  | case3 offset b' rest _ _ ih =>
      rw [lastStop_cons, List.length_cons]
      cases rest with
      | nil => rfl
      | cons c rest =>
          rw [ih _ last]
          omega
  | case4 offset b' rest _ inside ih =>
      rw [List.length_cons]
      cases rest with
      | nil =>
          simp only [List.getLast?_singleton, Option.some.injEq] at last
          exact absurd (last ▸ ends) inside
      | cons c rest =>
          rw [ih _ last]
          omega

end Terminator

namespace LineSpan

/-- The lines between some terminators, the first from `start` and the last to `stop`. -/
def between : (start : Nat) → List Terminator → (stop : Nat) → List LineSpan
  | start, [], stop => [⟨start, stop⟩]
  | start, t :: ts, stop => ⟨start, t.start⟩ :: between t.stop ts stop

theorem scan_eq_between (offset start : Nat) (bytes : List UInt8) :
    scan offset start bytes =
      between start (Terminator.scan offset bytes) (offset + bytes.length) := by
  fun_induction scan offset start bytes with
  | case1 offset start => rfl
  | case2 offset start rest ih =>
      have count : offset + (rest.length + 1 + 1) = offset + 2 + rest.length := by omega
      rw [ih, Terminator.scan_pair, between, List.length_cons, List.length_cons, count]
  | case3 offset start b rest pair ends ih =>
      have count : offset + (rest.length + 1) = offset + 1 + rest.length := by omega
      rw [ih, Terminator.scan_cons _ _ _ (Terminator.single_of_not_pair pair), if_pos ends,
        between, List.length_cons, count]
  | case4 offset start b rest pair inside ih =>
      have count : offset + (rest.length + 1) = offset + 1 + rest.length := by omega
      rw [ih, Terminator.scan_cons _ _ _ (Terminator.single_of_not_pair pair), if_neg inside,
        List.length_cons, count]

end LineSpan

end LintReport
