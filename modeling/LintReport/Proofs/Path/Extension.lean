import LintReport.Proofs.Path.Normal

set_option autoImplicit false

/- Paths with another extension. A normal form stays one, and the path becomes another one
unless it had that extension before. -/
namespace LintReport.Path

/-- What a file name can get as its extension. -/
structure IsExtension (e : List UInt8) : Prop where
  nonempty : e ≠ []
  noSlash : separator ∉ e

theorem splitExtension_cases (name : FileName) :
    splitExtension name = (name, none) ∨
      ∃ stem extension, stem ≠ [] ∧ name = stem ++ period :: extension ∧
        splitExtension name = (stem, some extension) := by
  unfold splitExtension
  cases cut : Text.splitFirst period name.reverse with
  | none => exact Or.inl rfl
  | some pair =>
      obtain ⟨after, before⟩ := pair
      cases before with
      | nil => exact Or.inl rfl
      | cons c before =>
          refine Or.inr ⟨_, _, ?_, ?_, rfl⟩
          · simp
          · have whole := congrArg List.reverse (Text.splitFirst_eq_some cut).1
            simpa using whole

/-- Another extension makes another name, unless the name has it already. -/
theorem splitExtension_of_eq {name : FileName} {extension : List UInt8}
    (same : (splitExtension name).1 ++ period :: extension = name) :
    (splitExtension name).2 = some extension := by
  rcases splitExtension_cases name with whole | ⟨stem, extension', _, spelled, split⟩
  · rw [whole] at same
    have lengths := congrArg List.length same
    simp only [List.length_append, List.length_cons] at lengths
    omega
  · rw [split] at same ⊢
    have tails : stem ++ period :: extension = stem ++ period :: extension' := same.trans spelled
    have equal : extension = extension' := by simpa using tails
    rw [equal]

theorem isName_stem {name : FileName} {extension : List UInt8} (named : IsName name)
    (valid : IsExtension extension) : IsName ((splitExtension name).1 ++ period :: extension) := by
  obtain ⟨nonempty, noSlash, _, _⟩ := named
  obtain ⟨stemNonempty, stemNoSlash⟩ :
      (splitExtension name).1 ≠ [] ∧ separator ∉ (splitExtension name).1 := by
    rcases splitExtension_cases name with whole | ⟨stem, extension', stemNonempty, spelled, split⟩
    · rw [whole]
      exact ⟨nonempty, noSlash⟩
    · rw [split]
      rw [spelled] at noSlash
      exact ⟨stemNonempty, fun member => noSlash (by simp [member])⟩
  -- A stem, a dot and an extension are too long for the names that are kept for folders.
  have long : 3 ≤ ((splitExtension name).1 ++ period :: extension).length := by
    have stem := List.length_pos_iff.mpr stemNonempty
    have rest := List.length_pos_iff.mpr valid.nonempty
    rw [List.length_append, List.length_cons]
    omega
  refine ⟨?_, ?_, ?_, ?_⟩
  · intro short
    simp [short] at long
  · rw [List.mem_append, List.mem_cons]
    rintro (inStem | dot | inExtension)
    · exact stemNoSlash inStem
    · cases dot
    · exact valid.noSlash inExtension
  · intro short
    simp [short] at long
  · intro short
    simp [short] at long

theorem IsNormal.folded {p : Path} (normal : p.IsNormal) :
    p.parts = [.current] ∨ ∃ stack, Folded stack ∧ p.parts = stack.reverse := by
  obtain ⟨stack, folded, equal⟩ := folded_normalParts p
  have parts := parts_normalize p
  rw [normal] at parts
  split at parts
  · exact Or.inl parts
  · exact Or.inr ⟨stack, folded, parts.trans equal⟩

theorem isNormal_ofParts {stack : List Part} (folded : Folded stack) (nonempty : stack ≠ []) :
    (ofParts stack.reverse).IsNormal := by
  have same : normalParts (ofParts stack.reverse).parts = stack.reverse := by
    rw [parts_ofParts folded, normalParts, foldl_reverse folded]
  unfold IsNormal normalize
  rw [same]
  split
  · next none => simp [nonempty] at none
  · rfl

theorem folded_name_cons {n : FileName} {below : List Part} :
    Folded (.name n :: below) ↔ IsName n ∧ Folded below := by
  constructor
  · rintro ⟨names, base, equal, based, all⟩
    cases names with
    | nil =>
        rw [List.map_nil, List.nil_append] at equal
        cases based with
        | root => cases equal
        | up count =>
            have top : Part.name n ∈ List.replicate count Part.parent :=
              equal ▸ List.mem_cons_self
            cases List.eq_of_mem_replicate top
    | cons k names =>
        obtain ⟨top, rest⟩ := List.cons.inj equal
        cases top
        exact ⟨all n List.mem_cons_self, names, base, rest, based,
          fun k member => all k (List.mem_cons_of_mem n member)⟩
  · rintro ⟨named, folded⟩
    exact folded_fold folded (.name named)

/-- A file name is the last part, on top of the others. -/
theorem IsNormal.parts_of_fileName {p : Path} (normal : p.IsNormal) {n : FileName}
    (named : p.fileName = some n) :
    ∃ below, IsName n ∧ Folded below ∧ p.parts = below.reverse ++ [.name n] := by
  have last : p.parts.getLast? = some (.name n) := by
    unfold fileName at named
    split at named
    · next m last => exact Option.some.inj named ▸ last
    · cases named
  rcases normal.folded with dot | ⟨stack, folded, parts⟩
  · rw [dot] at last
    cases last
  · cases stack with
    | nil =>
        rw [parts] at last
        cases last
    | cons top below =>
        rw [parts, List.getLast?_reverse, List.head?_cons] at last
        cases last
        obtain ⟨isName, folded'⟩ := folded_name_cons.mp folded
        exact ⟨below, isName, folded', parts.trans List.reverse_cons⟩

/-- With another extension a normal form is one again, and not the same path unless it had that
extension. -/
theorem isNormal_withExtension {p : Path} (normal : p.IsNormal) {n : FileName}
    (named : p.fileName = some n) {extension : List UInt8} (valid : IsExtension extension) :
    (p.withExtension extension).IsNormal ∧
      (Same (p.withExtension extension) p → p.extension = some extension) := by
  obtain ⟨below, isName, folded, parts⟩ := normal.parts_of_fileName named
  have renamed : Folded (.name ((splitExtension n).1 ++ period :: extension) :: below) :=
    folded_name_cons.mpr ⟨isName_stem isName valid, folded⟩
  have spelled : p.withExtension extension =
      ofParts (.name ((splitExtension n).1 ++ period :: extension) :: below).reverse := by
    rw [withExtension, named, parts, List.dropLast_concat, List.reverse_cons]
  rw [spelled]
  refine ⟨isNormal_ofParts renamed (List.cons_ne_nil _ _), ?_⟩
  intro same
  rw [Same, parts_ofParts renamed, parts, List.reverse_cons] at same
  have tops := List.append_cancel_left same
  have names : (splitExtension n).1 ++ period :: extension = n := by simpa using tops
  rw [Path.extension, named, Option.bind_some, splitExtension_of_eq names]

end LintReport.Path
