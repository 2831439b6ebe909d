import LintReport.Proofs.Path.Walk
import Mathlib.Data.List.Flatten

set_option autoImplicit false

/- What folding keeps of a path. The text of a normal form is that of the path with some of it left
out, and every front of a path folds to a stack that is absolute if the path is. -/
namespace LintReport

theorem Text.flatMap_splitOn {α : Type} [DecidableEq α] (sep : α) (s : List α) :
    (Text.splitOn sep s).flatMap (fun piece => piece ++ [sep]) = s ++ [sep] := by
  induction s with
  | nil => rfl
  | cons c rest ih =>
      rw [Text.splitOn]
      by_cases equal : c = sep
      · rw [if_pos equal, List.flatMap_cons, ih, equal]
        rfl
      · rw [if_neg equal]
        cases pieces : Text.splitOn sep rest with
        | nil =>
            rw [pieces] at ih
            cases rest <;> cases ih
        | cons piece pieces' =>
            rw [pieces, List.flatMap_cons] at ih
            rw [List.flatMap_cons, List.cons_append, List.cons_append, ih, List.cons_append]

namespace Path

/-! A normal form is spelled with part of its path's own text. -/

/-- Parts with a slash behind each. -/
def slashed (ps : List Part) : List UInt8 := ps.flatMap fun part => part.bytes ++ [separator]

theorem slashed_cons (part : Part) (ps : List Part) :
    slashed (part :: ps) = part.bytes ++ separator :: slashed ps := by
  rw [slashed, List.flatMap_cons, List.append_assoc]
  rfl

theorem spelled_append_slash {ps : List Part} (some : ps ≠ []) :
    spelled ps ++ [separator] = slashed ps := by
  induction ps with
  | nil => exact absurd rfl some
  | cons part ps ih =>
      rw [spelled_cons, slashed_cons, List.append_assoc]
      cases ps with
      | nil => rfl
      | cons next ps => simp [← ih (List.cons_ne_nil next ps)]

theorem slashed_relativeParts (bytes : List UInt8) :
    (slashed (relativeParts bytes)).Sublist (bytes ++ [separator]) := by
  rw [← Text.flatMap_splitOn, relativeParts]
  induction Text.splitOn separator bytes with
  | nil => exact List.Sublist.refl _
  | cons piece pieces ih =>
      rw [List.filterMap_cons, List.flatMap_cons]
      split
      · exact ih.trans (List.sublist_append_right _ _)
      · next part kept =>
          have same : part.bytes = piece := by
            unfold innerPart? at kept
            split at kept
            · cases kept
            split at kept
            · next dots =>
                cases kept
                exact dots.symm
            · cases kept
              rfl
          rw [slashed_cons, same, List.append_assoc]
          exact (List.Sublist.refl piece).append ((List.Sublist.refl [separator]).append ih)

theorem slashed_parts (p : Path) : (slashed p.parts).Sublist (p.bytes ++ [separator]) := by
  unfold parts partsOf
  split
  · next rest text =>
      rw [text, slashed_cons]
      exact (slashed_relativeParts rest).cons_cons separator
  · next text =>
      rw [text]
      exact List.Sublist.refl _
  · next rest text =>
      rw [text, slashed_cons]
      exact ((slashed_relativeParts rest).cons_cons separator).cons_cons period
  · exact slashed_relativeParts _

theorem sublist_fold (stack : List Part) (part : Part) :
    (fold stack part).reverse.Sublist (stack.reverse ++ [part]) := by
  have all : (part :: stack).reverse.Sublist (stack.reverse ++ [part]) := by
    rw [List.reverse_cons]
  have others : stack.reverse.Sublist (stack.reverse ++ [part]) := List.sublist_append_left _ _
  cases part with
  | root => exact all
  | current => exact others
  | name n => exact all
  | parent =>
      rw [fold.eq_def]
      dsimp only
      split
      · next n rest =>
          rw [List.reverse_cons] at others ⊢
          exact (List.sublist_append_left _ _).trans others
      · exact others
      · exact all

theorem sublist_foldl_fold (ps stack : List Part) :
    (ps.foldl fold stack).reverse.Sublist (stack.reverse ++ ps) := by
  induction ps generalizing stack with
  | nil => rw [List.append_nil]; rfl
  | cons part ps ih =>
      have first := (sublist_fold stack part).append (List.Sublist.refl ps)
      rw [List.append_assoc] at first
      exact (ih (fold stack part)).trans first

theorem normalParts_sublist (ps : List Part) : (normalParts ps).Sublist ps :=
  sublist_foldl_fold ps []

variable {n : FileName} {below : List Part}

theorem ofParts_append_slash (folded : Folded (.name n :: below)) :
    (ofParts (Part.name n :: below).reverse).bytes ++ [separator] =
      slashed (Part.name n :: below).reverse := by
  obtain ⟨inner, allInner, rooted | relative⟩ := folded.exists_inner
  · have some : inner ≠ [] := by
      rintro rfl
      have first := congrArg List.getLast? rooted
      simp at first
    rw [rooted, bytes_ofParts_root, List.cons_append, spelled_append_slash some, slashed_cons]
    rfl
  · have some : inner ≠ [] := by
      rw [← relative]
      simp
    rw [relative, bytes_ofParts allInner, spelled_append_slash some]

theorem exists_folded_of_fileName {p : Path} (named : p.fileName = some n) :
    ∃ below, p.parts.foldl fold [] = .name n :: below := by
  have last : p.parts.getLast? = some (.name n) := by
    unfold fileName at named
    split at named
    · next last =>
        cases named
        exact last
    · cases named
  obtain ⟨front, parts⟩ := List.getLast?_eq_some_iff.mp last
  refine ⟨front.foldl fold [], ?_⟩
  rw [parts, List.foldl_append]
  rfl

theorem normalize_eq_ofParts {p : Path} (top : p.parts.foldl fold [] = .name n :: below) :
    p.normalize = ofParts (Part.name n :: below).reverse := by
  have normal : normalParts p.parts = (Part.name n :: below).reverse := by rw [normalParts, top]
  unfold normalize
  rw [normal]
  split
  · next none => simp at none
  · rfl

theorem bytes_ofParts_ne_nil (folded : Folded (.name n :: below)) :
    (ofParts (Part.name n :: below).reverse).bytes ≠ [] := by
  intro empty
  have read := parts_ofParts folded
  have nothing : partsOf [] = [] := rfl
  rw [parts, empty, nothing] at read
  simp at read

/-- The text of a path that ends in a name gives that of its normal form by leaving some out. -/
theorem sublist_normalize {p : Path} (named : p.fileName = some n) :
    p.normalize.bytes.Sublist p.bytes := by
  obtain ⟨below, top⟩ := exists_folded_of_fileName named
  have folded : Folded (.name n :: below) := top ▸ folded_parts p
  have kept : (Part.name n :: below).reverse.Sublist p.parts := by
    rw [← top]
    exact normalParts_sublist p.parts
  rw [normalize_eq_ofParts top, ← List.append_sublist_append_right [separator],
    ofParts_append_slash folded]
  exact (kept.flatMap _).trans (slashed_parts p)

/-! The front of a path, folded. -/

/-- What stands in front of a path's inner parts is folded already. -/
theorem exists_folded_front (p : Path) : ∃ front inner, p.parts = front ++ inner ∧
    (∀ part ∈ inner, Part.Inner part) ∧ Folded (front.foldl fold []) ∧
    p.parts.filter (· ≠ .current) = (front.foldl fold []).reverse ++ inner := by
  obtain ⟨inner, allInner, parts⟩ := parts_cases p
  have kept : inner.filter (· ≠ .current) = inner := by
    rw [List.filter_eq_self]
    intro part member
    cases allInner part member <;> rfl
  rcases parts with rooted | dotted | plain
  · refine ⟨[.root], inner, rooted, allInner, folded_root, ?_⟩
    rw [rooted, List.filter_cons_of_pos (by decide), kept]
    rfl
  · refine ⟨[.current], inner, dotted, allInner, folded_nil, ?_⟩
    rw [dotted, List.filter_cons_of_neg (by decide), kept]
    rfl
  · refine ⟨[], inner, plain, allInner, folded_nil, ?_⟩
    rw [plain, kept]
    rfl

section Front

variable {p : Path} {front back : List Part} (split : p.parts = front ++ back)

include split

theorem folded_of_split : Folded (front.foldl fold []) := by
  have whole := parts_cases p
  rw [split] at whole
  obtain ⟨inner, allInner, parts⟩ := whole
  cases front with
  | nil => exact folded_nil
  | cons part front =>
      rw [List.cons_append] at parts
      rcases parts with rooted | dotted | plain
      · obtain ⟨rfl, rfl⟩ := List.cons.inj rooted
        show Folded (front.foldl fold [.root])
        exact folded_foldl folded_root fun part member =>
          allInner part (List.mem_append_left _ member)
      · obtain ⟨rfl, rfl⟩ := List.cons.inj dotted
        show Folded (front.foldl fold [])
        exact folded_foldl folded_nil fun part member =>
          allInner part (List.mem_append_left _ member)
      · rw [← plain] at allInner
        exact folded_foldl folded_nil fun part member =>
          allInner part (List.mem_append_left back member)

/-- Folding the front of a path keeps it absolute or relative. -/
theorem isAbsolute_of_split (top : front.foldl fold [] = .name n :: below) :
    (ofParts (Part.name n :: below).reverse).isAbsolute = p.isAbsolute := by
  have folded : Folded (.name n :: below) := top ▸ folded_of_split split
  rw [Bool.eq_iff_iff, isAbsolute_iff_head?_parts, parts_ofParts folded,
    List.head?_reverse, ← top]
  cases anchored : p.isAbsolute with
  | true =>
      have first := isAbsolute_iff_head?_parts.mp anchored
      cases front with
      | nil => cases top
      | cons part front =>
          rw [split] at first
          cases first
          exact iff_of_true (getLast?_foldl_fold rfl front) rfl
  | false =>
      have rootless := not_mem_parts anchored
      rw [split, List.mem_append, not_or] at rootless
      refine iff_of_false (fun last => ?_) Bool.false_ne_true
      exact not_mem_foldl_fold List.not_mem_nil rootless.1 (List.mem_of_getLast? last)

end Front

end Path

end LintReport
