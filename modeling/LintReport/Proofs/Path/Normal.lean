import Mathlib.Data.List.Basic
import LintReport.Path.Normal

set_option autoImplicit false

/- Normal forms of paths. A list of parts is spelled so that reading gives it back, and
folding a list that is folded already changes nothing, so a normal form is its own normal
form and has one spelling. -/
namespace LintReport

section Pieces

variable {α : Type} [DecidableEq α]

theorem Text.splitOn_eq (sep : α) (s : List α) : Text.splitOn sep s = s.splitOn sep := by
  induction s with
  | nil => simp [Text.splitOn]
  | cons c rest ih =>
      rw [Text.splitOn, List.splitOn_cons_eq_if_modifyHead, ih]
      by_cases equal : c = sep
      · simp [equal]
      · simp only [equal, if_false, beq_iff_eq]
        cases pieces : rest.splitOn sep with
        | nil => exact absurd pieces (List.splitOn_ne_nil sep rest)
        | cons piece pieces => rfl

theorem Text.splitOn_append_cons (sep : α) (a b : List α) :
    Text.splitOn sep (a ++ sep :: b) = Text.splitOn sep a ++ Text.splitOn sep b := by
  rw [splitOn_eq, splitOn_eq, splitOn_eq, List.splitOn_append_cons_self]

theorem Text.not_mem_of_mem_splitOn {sep : α} {s piece : List α}
    (member : piece ∈ Text.splitOn sep s) : sep ∉ piece := by
  induction s generalizing piece with
  | nil =>
      simp only [Text.splitOn, List.mem_singleton] at member
      simp [member]
  | cons c rest ih =>
      rw [Text.splitOn] at member
      split at member
      · rcases List.mem_cons.mp member with rfl | later
        · simp
        · exact ih later
      · next different =>
          split at member
          · simp only [List.mem_singleton] at member
            simp [member, Ne.symm different]
          · next part parts equal =>
              rcases List.mem_cons.mp member with rfl | later
              · have first := ih (equal ▸ List.mem_cons_self)
                simp [first, Ne.symm different]
              · exact ih (equal ▸ List.mem_cons_of_mem part later)

end Pieces

namespace Path

/-- A name that is read as the one part that it is. -/
def IsName (n : FileName) : Prop :=
  n ≠ [] ∧ separator ∉ n ∧ n ≠ [period] ∧ n ≠ [period, period]

instance (n : FileName) : Decidable (IsName n) := inferInstanceAs (Decidable (_ ∧ _ ∧ _ ∧ _))

/-- Parts that lie between slashes. -/
inductive Part.Inner : Part → Prop
  | parent : Part.Inner .parent
  | name {n : FileName} (named : IsName n) : Part.Inner (.name n)

theorem inner_of_mem_relativeParts {bytes : List UInt8} {part : Part}
    (member : part ∈ relativeParts bytes) : part.Inner := by
  obtain ⟨piece, inPieces, read⟩ := List.mem_filterMap.mp member
  have noSlash := Text.not_mem_of_mem_splitOn inPieces
  unfold innerPart? at read
  split at read
  · cases read
  split at read
  · cases read
    exact .parent
  · next noStep notDots =>
      cases read
      exact .name ⟨fun empty => noStep (Or.inl empty), noSlash, fun dot => noStep (Or.inr dot),
        notDots⟩

/-- A part is read from its own bytes. -/
theorem innerPart?_bytes {part : Part} (inner : part.Inner) : innerPart? part.bytes = some part := by
  cases inner with
  | parent => rfl
  | name named =>
      obtain ⟨notEmpty, _, notDot, notDots⟩ := named
      rw [innerPart?, Part.bytes, if_neg (not_or.mpr ⟨notEmpty, notDot⟩), if_neg notDots]

theorem Part.Inner.noSlash {part : Part} (inner : part.Inner) : separator ∉ part.bytes := by
  cases inner with
  | parent => decide
  | name named => exact named.2.1

theorem spelled_cons (part : Part) (ps : List Part) :
    spelled (part :: ps) =
      part.bytes ++ if ps.isEmpty then [] else separator :: spelled ps := by
  unfold spelled
  cases ps with
  | nil => simp
  | cons next ps => simp

/-- Reading one piece of a spelled list gives its part. -/
theorem relativeParts_spelled {ps : List Part} (inner : ∀ part ∈ ps, part.Inner) :
    relativeParts (spelled ps) = ps := by
  have pieces : ps ≠ [] → Text.splitOn separator (spelled ps) = ps.map Part.bytes := by
    intro nonempty
    rw [Text.splitOn_eq, spelled, List.splitOn_intercalate]
    · intro piece member
      obtain ⟨part, inList, rfl⟩ := List.mem_map.mp member
      exact (inner part inList).noSlash
    · simpa using nonempty
  by_cases empty : ps = []
  · rw [empty]
    rfl
  calc relativeParts (spelled ps)
    _ = ps.filterMap some := by
      rw [relativeParts, pieces empty, List.filterMap_map]
      apply List.filterMap_congr
      intro part member
      exact innerPart?_bytes (inner part member)
    _ = ps := List.filterMap_some

/-- A spelled part starts with no slash, and not with a single dot. -/
theorem Part.Inner.bytes_eq {part : Part} (inner : part.Inner) :
    ∃ c cs, part.bytes = c :: cs ∧ c ≠ separator ∧
      (c = period → ∃ d ds, cs = d :: ds ∧ d ≠ separator) := by
  cases inner with
  | parent => exact ⟨period, [period], rfl, by decide, fun _ => ⟨period, [], rfl, by decide⟩⟩
  | @name n named =>
      obtain ⟨notEmpty, noSlash, notDot, _⟩ := named
      rw [Part.bytes]
      cases spelling : n with
      | nil => exact absurd spelling notEmpty
      | cons c cs =>
          rw [spelling, List.mem_cons, not_or] at noSlash
          refine ⟨c, cs, rfl, Ne.symm noSlash.1, ?_⟩
          intro dot
          rw [dot] at spelling
          cases cs with
          | nil => exact absurd spelling notDot
          | cons d ds => exact ⟨d, ds, rfl, fun equal => noSlash.2 (equal ▸ List.mem_cons_self)⟩

/-- A text with neither a slash nor a single dot in front has no root and no dot. -/
theorem partsOf_plain {c : UInt8} {rest : List UInt8} (relative : c ≠ separator)
    (plain : ¬ (c = period ∧ (rest = [] ∨ rest.head? = some separator))) :
    partsOf (c :: rest) = relativeParts (c :: rest) := by
  rw [partsOf]
  · intro _ root
    exact relative (List.cons.inj root).1
  · intro dot
    obtain ⟨first, none⟩ := List.cons.inj dot
    exact plain ⟨first, Or.inl none⟩
  · intro behind dot
    obtain ⟨first, slash⟩ := List.cons.inj dot
    exact plain ⟨first, Or.inr (slash ▸ rfl)⟩

theorem partsOf_append {part : Part} (inner : part.Inner) (rest : List UInt8) :
    partsOf (part.bytes ++ rest) = relativeParts (part.bytes ++ rest) := by
  obtain ⟨c, cs, equal, noSlash, dots⟩ := inner.bytes_eq
  rw [equal, List.cons_append]
  apply partsOf_plain noSlash
  intro ⟨dot, ends⟩
  obtain ⟨d, ds, rfl, noSlash'⟩ := dots dot
  simp [noSlash'] at ends

theorem partsOf_spelled {ps : List Part} (inner : ∀ part ∈ ps, part.Inner) :
    partsOf (spelled ps) = ps := by
  have read := relativeParts_spelled inner
  cases ps with
  | nil => rfl
  | cons part ps =>
      rw [spelled_cons] at read ⊢
      rw [partsOf_append (inner part List.mem_cons_self), read]

/-- Where a stack of folded parts begins: at the root, or some directories up. -/
inductive Base : List Part → Prop
  | root : Base [.root]
  | up (count : Nat) : Base (List.replicate count .parent)

/-- What folding leads to: names on a base, the last of them in front. -/
def Folded (stack : List Part) : Prop :=
  ∃ names base, stack = List.map Part.name names ++ base ∧ Base base ∧ ∀ n ∈ names, IsName n

theorem folded_nil : Folded [] := ⟨[], [], rfl, .up 0, by simp⟩

theorem folded_root : Folded [.root] := ⟨[], [.root], rfl, .root, by simp⟩

/-- One more inner part keeps a stack folded. -/
theorem folded_fold {stack : List Part} {part : Part} (folded : Folded stack)
    (inner : part.Inner) : Folded (fold stack part) := by
  obtain ⟨names, base, rfl, based, named⟩ := folded
  cases inner with
  | @name n isName =>
      refine ⟨n :: names, base, rfl, based, ?_⟩
      intro m member
      rcases List.mem_cons.mp member with rfl | later
      · exact isName
      · exact named m later
  | parent =>
      cases names with
      | cons n names =>
          exact ⟨names, base, rfl, based, fun m member => named m (List.mem_cons_of_mem n member)⟩
      | nil =>
          cases based with
          | root => exact folded_root
          | up count =>
              refine ⟨[], List.replicate (count + 1) .parent, ?_, .up _, by simp⟩
              cases count <;> rfl

theorem folded_foldl {ps stack : List Part} (folded : Folded stack)
    (inner : ∀ part ∈ ps, part.Inner) : Folded (ps.foldl fold stack) := by
  induction ps generalizing stack with
  | nil => exact folded
  | cons part ps ih =>
      exact ih (folded_fold folded (inner part List.mem_cons_self))
        fun later member => inner later (List.mem_cons_of_mem part member)

/-- A root or a dot can only come first. -/
theorem parts_cases (p : Path) :
    ∃ inner, (∀ part ∈ inner, Part.Inner part) ∧
      (p.parts = .root :: inner ∨ p.parts = .current :: inner ∨ p.parts = inner) := by
  unfold parts partsOf
  split
  · next rest _ => exact ⟨_, fun _ => inner_of_mem_relativeParts, Or.inl rfl⟩
  · exact ⟨[], by simp, Or.inr (Or.inl rfl)⟩
  · next rest _ => exact ⟨_, fun _ => inner_of_mem_relativeParts, Or.inr (Or.inl rfl)⟩
  · exact ⟨_, fun _ => inner_of_mem_relativeParts, Or.inr (Or.inr rfl)⟩

theorem folded_parts (p : Path) : Folded (p.parts.foldl fold []) := by
  obtain ⟨inner, allInner, equal | equal | equal⟩ := parts_cases p
  · rw [equal, List.foldl_cons]
    exact folded_foldl folded_root allInner
  · rw [equal, List.foldl_cons]
    exact folded_foldl folded_nil allInner
  · rw [equal]
    exact folded_foldl folded_nil allInner

theorem foldl_names (names : List FileName) (stack : List Part) :
    (names.map Part.name).foldl fold stack = (names.map Part.name).reverse ++ stack := by
  induction names generalizing stack with
  | nil => rfl
  | cons n names ih =>
      rw [List.map_cons, List.foldl_cons, ih, List.reverse_cons, List.append_assoc]
      rfl

theorem foldl_replicate (count : Nat) :
    (List.replicate count Part.parent).foldl fold [] = List.replicate count .parent := by
  induction count with
  | zero => rfl
  | succ count ih =>
      rw [List.replicate_succ', List.foldl_append, ih, List.foldl_cons, List.foldl_nil,
        ← List.replicate_succ', List.replicate_succ]
      cases count <;> rfl

/-- Folding a list that is folded already gives it back. -/
theorem foldl_reverse {stack : List Part} (folded : Folded stack) :
    stack.reverse.foldl fold [] = stack := by
  obtain ⟨names, base, rfl, based, _⟩ := folded
  have below : base.reverse.foldl fold [] = base := by
    cases based with
    | root => rfl
    | up count => rw [List.reverse_replicate, foldl_replicate]
  rw [List.reverse_append, List.foldl_append, below, ← List.map_reverse, foldl_names,
    List.map_reverse, List.reverse_reverse]

theorem bytes_ofParts_root (ps : List Part) :
    (ofParts (.root :: ps)).bytes = separator :: spelled ps := rfl

theorem bytes_ofParts {ps : List Part} (inner : ∀ part ∈ ps, part.Inner) :
    (ofParts ps).bytes = spelled ps := by
  unfold ofParts
  split
  · next rest => cases inner .root List.mem_cons_self
  · rfl

/-- What a folded stack spells from its base: only inner parts, behind the root if it has one. -/
theorem Folded.exists_inner {stack : List Part} (folded : Folded stack) :
    ∃ inner, (∀ part ∈ inner, Part.Inner part) ∧
      (stack.reverse = .root :: inner ∨ stack.reverse = inner) := by
  obtain ⟨names, base, rfl, based, named⟩ := folded
  have down : ∀ part ∈ (names.map Part.name).reverse, part.Inner := by
    intro part member
    obtain ⟨n, inNames, rfl⟩ := List.mem_map.mp (List.mem_reverse.mp member)
    exact .name (named n inNames)
  cases based with
  | root => exact ⟨(names.map Part.name).reverse, down, Or.inl (by simp)⟩
  | up count =>
      refine ⟨_, ?_, Or.inr rfl⟩
      intro part member
      rw [List.reverse_append, List.reverse_replicate] at member
      rcases List.mem_append.mp member with up | names
      · exact List.eq_of_mem_replicate up ▸ .parent
      · exact down part names

/-- A folded list is read as it is spelled. -/
theorem parts_ofParts {stack : List Part} (folded : Folded stack) :
    (ofParts stack.reverse).parts = stack.reverse := by
  obtain ⟨inner, allInner, rooted | relative⟩ := folded.exists_inner
  · rw [rooted, parts, bytes_ofParts_root, partsOf_separator, relativeParts_spelled allInner]
  · rw [relative, parts, bytes_ofParts allInner, partsOf_spelled allInner]

theorem folded_normalParts (p : Path) :
    ∃ stack, Folded stack ∧ normalParts p.parts = stack.reverse :=
  ⟨_, folded_parts p, rfl⟩

/-- The parts of a normal form are the folded ones, and a dot if there are none. -/
theorem parts_normalize (p : Path) :
    p.normalize.parts =
      if normalParts p.parts = [] then [.current] else normalParts p.parts := by
  obtain ⟨stack, folded, equal⟩ := folded_normalParts p
  unfold normalize
  split
  · next empty =>
      rw [if_pos empty]
      rfl
  · next nonempty =>
      rw [if_neg nonempty, equal, parts_ofParts folded]

theorem normalParts_normalize (p : Path) :
    normalParts p.normalize.parts = normalParts p.parts := by
  obtain ⟨stack, folded, equal⟩ := folded_normalParts p
  rw [parts_normalize]
  by_cases empty : normalParts p.parts = []
  · rw [if_pos empty, empty]
    rfl
  · rw [if_neg empty, equal, normalParts, foldl_reverse folded]

theorem normalize_congr {p q : Path} (folded : normalParts p.parts = normalParts q.parts) :
    p.normalize = q.normalize := by
  unfold normalize
  rw [folded]

/-- A normal form is its own normal form. -/
theorem normalize_normalize (p : Path) : p.normalize.normalize = p.normalize :=
  normalize_congr (normalParts_normalize p)

/-- A path that is spelled in normal form. -/
def IsNormal (p : Path) : Prop := p.normalize = p

theorem isNormal_normalize (p : Path) : IsNormal p.normalize := normalize_normalize p

/-- A normal form has one spelling. -/
theorem IsNormal.eq_of_same {p q : Path} (normal : IsNormal p) (normal' : IsNormal q)
    (same : Same p q) : p = q := by
  rw [← normal, ← normal']
  apply normalize_congr
  rw [same]

end Path

end LintReport
