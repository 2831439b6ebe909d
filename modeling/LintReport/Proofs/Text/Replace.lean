import LintReport.Text.Search
import Mathlib.Data.List.Infix

set_option autoImplicit false

/- Replacing many patterns at once. One pass from the left with a table of patterns does the
same as one pass for each of them in turn, if no pattern can begin in a new text or reach into
one from in front of it. -/
namespace LintReport.Text

section Pattern

variable {pattern : List Char} (new : List Char)

theorem replaceAll_append (filled : pattern ≠ []) (rest : List Char) :
    replaceAll pattern new (pattern ++ rest) = new ++ replaceAll pattern new rest := by
  obtain ⟨c, tail, rfl⟩ := List.exists_cons_of_ne_nil filled
  have front : (c :: tail).isPrefixOf (c :: (tail ++ rest)) = true :=
    List.isPrefixOf_iff_prefix.mpr ⟨rest, rfl⟩
  rw [List.cons_append, replaceAll, replaceFrom, if_pos front, replaceFrom_drop, List.length_cons,
    Nat.add_sub_cancel, List.drop_left]

theorem replaceAll_cons {c : Char} {rest : List Char} (other : ¬ pattern <+: c :: rest) :
    replaceAll pattern new (c :: rest) = c :: replaceAll pattern new rest := by
  have front : ¬ pattern.isPrefixOf (c :: rest) = true := by
    rw [List.isPrefixOf_iff_prefix]
    exact other
  rw [replaceAll, replaceFrom, if_neg front]
  rfl

/-- Where the first character of a pattern does not stand, the pattern does not begin. -/
theorem replaceAll_append_of_not_mem {mark : Char} (first : pattern.head? = some mark)
    {front : List Char} (clear : mark ∉ front) (rest : List Char) :
    replaceAll pattern new (front ++ rest) = front ++ replaceAll pattern new rest := by
  induction front with
  | nil => rfl
  | cons c front ih =>
      obtain ⟨other, later⟩ := not_or.mp (List.mem_cons.not.mp clear)
      have absent : ¬ pattern <+: c :: (front ++ rest) := by
        rintro ⟨behind, begins⟩
        apply other
        have same := congrArg List.head? begins
        rw [List.head?_append, first, Option.some_or] at same
        exact Option.some.inj same
      rw [List.cons_append, replaceAll_cons new absent, ih later, List.cons_append]

end Pattern

/-- The first pattern of a table that a text begins with. -/
def patternAt? (table : List (List Char × List Char)) (text : List Char) :
    Option (List Char × List Char) :=
  table.find? fun entry => entry.1.isPrefixOf text

theorem patternAt?_eq_some_iff {table : List (List Char × List Char)} {text : List Char}
    {entry : List Char × List Char} : patternAt? table text = some entry ↔
      entry.1 <+: text ∧ ∃ before behind, table = before ++ entry :: behind ∧
        ∀ e ∈ before, ¬ e.1 <+: text := by
  rw [patternAt?, List.find?_eq_some_iff_append, List.isPrefixOf_iff_prefix]
  simp only [Bool.not_eq_true', ← Bool.not_eq_true, List.isPrefixOf_iff_prefix]

theorem patternAt?_eq_none_iff {table : List (List Char × List Char)} {text : List Char} :
    patternAt? table text = none ↔ ∀ e ∈ table, ¬ e.1 <+: text := by
  rw [patternAt?, List.find?_eq_none]
  simp only [List.isPrefixOf_iff_prefix]

/-- One pass over a text from the left, with a table of patterns and their new texts. Where
patterns begin, the first of them in the table gives way to its new text, which is not looked at
again; where none begins, a character is copied. -/
inductive Replaced (table : List (List Char × List Char)) : List Char → List Char → Prop
  | nil : Replaced table [] []
  | hit {pattern new rest out : List Char} :
      patternAt? table (pattern ++ rest) = some (pattern, new) →
      Replaced table rest out → Replaced table (pattern ++ rest) (new ++ out)
  | copy {c : Char} {rest out : List Char} :
      patternAt? table (c :: rest) = none →
      Replaced table rest out → Replaced table (c :: rest) (c :: out)

/-- A pattern that begins with `mark`, and its new text, which begins with `stop`. The pattern
holds neither of them again, so it begins in no new text and reaches into none. -/
structure Separated (mark stop : Char) (entry : List Char × List Char) : Prop where
  marked : ∃ rest, entry.1 = mark :: rest ∧ mark ∉ rest
  clear : stop ∉ entry.1
  stopped : entry.2.head? = some stop
  plain : mark ∉ entry.2

namespace Separated

variable {mark stop : Char} {entry : List Char × List Char}

theorem head? (separated : Separated mark stop entry) : entry.1.head? = some mark := by
  obtain ⟨rest, equal, _⟩ := separated.marked
  rw [equal]
  rfl

theorem ne_nil (separated : Separated mark stop entry) : entry.1 ≠ [] := by
  intro empty
  have first := separated.head?
  rw [empty] at first
  cases first

/-- A text without `stop` does not begin where a new text does. -/
theorem eq_nil_of_begins (separated : Separated mark stop entry) {p out : List Char}
    (clear : stop ∉ p) (begins : p <+: entry.2 ++ out) : p = [] := by
  cases p with
  | nil => rfl
  | cons c p =>
      obtain ⟨behind, equal⟩ := begins
      have first := congrArg List.head? equal
      rw [List.head?_append (l := entry.2), separated.stopped, Option.some_or] at first
      rw [← Option.some.inj first] at clear
      exact absurd List.mem_cons_self clear

/-- A pattern that stands behind the start of a new text stands behind its end. -/
theorem infix_of_infix_append (separated : Separated mark stop entry) {front out : List Char}
    (clear : mark ∉ front) (inside : entry.1 <:+: front ++ out) : entry.1 <:+: out := by
  induction front with
  | nil => exact inside
  | cons c front ih =>
      obtain ⟨other, later⟩ := not_or.mp (List.mem_cons.not.mp clear)
      rw [List.cons_append, List.infix_cons_iff] at inside
      rcases inside with ⟨behind, begins⟩ | deeper
      · have first := congrArg List.head? begins
        rw [List.head?_append, separated.head?, Option.some_or] at first
        exact absurd (Option.some.inj first) other
      · exact ih later deeper

/-- A text without `stop` that is there after a replacement was there before. -/
theorem prefix_of_prefix_replaceAll (separated : Separated mark stop entry) {p s : List Char}
    (clear : stop ∉ p) (begins : p <+: replaceAll entry.1 entry.2 s) : p <+: s := by
  induction s generalizing p with
  | nil => exact begins
  | cons c s ih =>
      by_cases here : entry.1 <+: c :: s
      · obtain ⟨rest, equal⟩ := here
        rw [← equal, replaceAll_append entry.2 separated.ne_nil] at begins
        rw [separated.eq_nil_of_begins clear begins]
        exact List.nil_prefix
      · rw [replaceAll_cons entry.2 here] at begins
        cases p with
        | nil => exact List.nil_prefix
        | cons d p =>
            obtain ⟨same, later⟩ := List.cons_prefix_cons.mp begins
            rw [same, List.cons_prefix_cons]
            exact ⟨rfl, ih (List.not_mem_of_not_mem_cons clear) later⟩

/-- An occurrence of another pattern is left as it is. -/
theorem replaceAll_marked (separated : Separated mark stop entry) {pattern rest : List Char}
    (marked : ∃ tail, pattern = mark :: tail ∧ mark ∉ tail)
    (other : ¬ entry.1 <+: pattern ++ rest) :
    replaceAll entry.1 entry.2 (pattern ++ rest) =
      pattern ++ replaceAll entry.1 entry.2 rest := by
  obtain ⟨tail, rfl, clear⟩ := marked
  rw [List.cons_append] at other ⊢
  rw [replaceAll_cons entry.2 other,
    replaceAll_append_of_not_mem entry.2 separated.head? clear, List.cons_append]

end Separated

namespace Replaced

variable {mark stop : Char} {table : List (List Char × List Char)} {s t : List Char}

theorem mem_of_patternAt? {entry : List Char × List Char} (first : patternAt? table s = some entry) :
    entry ∈ table :=
  List.mem_of_find?_eq_some first

theorem eq_of_nil (replaced : Replaced [] s t) : t = s := by
  induction replaced with
  | nil => rfl
  | hit first => cases first
  | copy _ _ ih => rw [ih]

/-- Text in which no pattern begins is copied. -/
theorem append (separated : ∀ entry ∈ table, Separated mark stop entry) {front : List Char}
    (clear : mark ∉ front) (replaced : Replaced table s t) :
    Replaced table (front ++ s) (front ++ t) := by
  induction front with
  | nil => exact replaced
  | cons c front ih =>
      obtain ⟨other, later⟩ := not_or.mp (List.mem_cons.not.mp clear)
      refine Replaced.copy (patternAt?_eq_none_iff.mpr ?_) (ih later)
      rintro entry member ⟨behind, begins⟩
      have first := congrArg List.head? begins
      rw [List.head?_append, (separated entry member).head?, Option.some_or] at first
      exact other (Option.some.inj first)

theorem exists_replaced (filled : ∀ entry ∈ table, entry.1 ≠ []) (s : List Char) :
    ∃ t, Replaced table s t := by
  induction size : s.length using Nat.strongRecOn generalizing s with
  | ind n ih =>
      cases s with
      | nil => exact ⟨[], Replaced.nil⟩
      | cons c s =>
          rw [List.length_cons] at size
          cases first : patternAt? table (c :: s) with
          | none =>
              obtain ⟨t, replaced⟩ := ih s.length (by omega) s rfl
              exact ⟨c :: t, Replaced.copy first replaced⟩
          | some entry =>
              obtain ⟨⟨rest, equal⟩, _⟩ := patternAt?_eq_some_iff.mp first
              have lengths := congrArg List.length equal
              have positive := List.length_pos_iff.mpr (filled entry (mem_of_patternAt? first))
              rw [List.length_append, List.length_cons] at lengths
              obtain ⟨t, replaced⟩ := ih rest.length (by omega) rest rfl
              rw [← equal] at first ⊢
              exact ⟨entry.2 ++ t, Replaced.hit first replaced⟩

/-- The first pattern of a table can be replaced in front of the others. -/
theorem step {entry : List Char × List Char}
    (separated : ∀ e ∈ entry :: table, Separated mark stop e)
    (replaced : Replaced (entry :: table) s t) :
    Replaced table (replaceAll entry.1 entry.2 s) t := by
  obtain ⟨here, others⟩ := List.forall_mem_cons.mp separated
  induction replaced with
  | nil => exact Replaced.nil
  | @hit pattern new rest out first _ ih =>
      obtain ⟨_, before, behind, split, none⟩ := patternAt?_eq_some_iff.mp first
      cases before with
      | nil =>
          rw [List.nil_append, List.cons.injEq] at split
          rw [split.1] at here ih ⊢
          rw [replaceAll_append new here.ne_nil]
          exact ih.append others here.plain
      | cons e before =>
          rw [List.cons_append, List.cons.injEq] at split
          obtain ⟨rfl, split⟩ := split
          obtain ⟨other, none⟩ := List.forall_mem_cons.mp none
          have member : (pattern, new) ∈ table := by simp [split]
          have kept := here.replaceAll_marked (others _ member).marked other
          rw [kept]
          apply Replaced.hit _ ih
          refine patternAt?_eq_some_iff.mpr ⟨List.prefix_append _ _, before, behind, split, ?_⟩
          -- A pattern in front of this one in the table would have been there before.
          intro e early later
          have inTable : e ∈ table := by
            rw [split]
            exact List.mem_append_left _ early
          rw [← kept] at later
          exact none e early (here.prefix_of_prefix_replaceAll (others e inTable).clear later)
  | @copy c rest out none _ ih =>
      obtain ⟨absent, none⟩ := List.forall_mem_cons.mp (patternAt?_eq_none_iff.mp none)
      have copied := replaceAll_cons entry.2 absent
      rw [copied]
      apply Replaced.copy _ ih
      rw [patternAt?_eq_none_iff]
      intro e member later
      rw [← copied] at later
      exact none e member (here.prefix_of_prefix_replaceAll (others e member).clear later)

/-- One pass for each pattern of the table, in its order. -/
theorem foldl_replaceAll (separated : ∀ entry ∈ table, Separated mark stop entry)
    (replaced : Replaced table s t) :
    table.foldl (fun text entry => replaceAll entry.1 entry.2 text) s = t := by
  induction table generalizing s with
  | nil => exact replaced.eq_of_nil.symm
  | cons entry table ih =>
      exact ih (List.forall_mem_cons.mp separated).2 (replaced.step separated)

theorem iff_foldl_replaceAll (separated : ∀ entry ∈ table, Separated mark stop entry) :
    Replaced table s t ↔
      table.foldl (fun text entry => replaceAll entry.1 entry.2 text) s = t := by
  constructor
  · exact foldl_replaceAll separated
  · rintro rfl
    obtain ⟨t, replaced⟩ := exists_replaced (fun e member => (separated e member).ne_nil) s
    rw [replaced.foldl_replaceAll separated]
    exact replaced

theorem begins_of_begins (separated : ∀ entry ∈ table, Separated mark stop entry)
    (replaced : Replaced table s t) {p : List Char} (clear : stop ∉ p) (begins : p <+: t) :
    p <+: s := by
  induction replaced generalizing p with
  | nil => exact begins
  | hit first =>
      rw [(separated _ (mem_of_patternAt? first)).eq_nil_of_begins clear begins]
      exact List.nil_prefix
  | copy _ _ ih =>
      cases p with
      | nil => exact List.nil_prefix
      | cons d p =>
          obtain ⟨same, later⟩ := List.cons_prefix_cons.mp begins
          rw [same, List.cons_prefix_cons]
          exact ⟨rfl, ih (List.not_mem_of_not_mem_cons clear) later⟩

/-- No pattern is left. -/
theorem not_infix (separated : ∀ entry ∈ table, Separated mark stop entry)
    (replaced : Replaced table s t) {entry : List Char × List Char} (member : entry ∈ table) :
    ¬ entry.1 <:+: t := by
  have here := separated entry member
  induction replaced with
  | nil =>
      rw [List.infix_nil]
      exact here.ne_nil
  | hit first _ ih =>
      intro inside
      have plain := (separated _ (mem_of_patternAt? first)).plain
      exact ih (here.infix_of_infix_append plain inside)
  | copy none replaced ih =>
      rw [List.infix_cons_iff]
      rintro (begins | deeper)
      · exact patternAt?_eq_none_iff.mp none entry member
          ((replaced.copy none).begins_of_begins separated here.clear begins)
      · exact ih deeper

end Replaced

end LintReport.Text
