import LintReport.Proofs.Path.Walk

set_option autoImplicit false

/- Where a path leads once it is made absolute: from the working folder to where it leads itself.
Its parts are put behind the working folder one by one, so the spelling has other slashes than
the path behind the folder, but it is walked alike. -/
namespace LintReport.Path

@[simp] theorem reach_empty (base : List FileName) : reach base ⟨[]⟩ = base := rfl

theorem Part.Inner.parts_bytes {part : Part} (inner : part.Inner) :
    (⟨part.bytes⟩ : Path).parts = [part] := by
  have one := partsOf_spelled (List.forall_mem_singleton.mpr inner)
  rw [spelled_cons, List.isEmpty_nil, if_pos rfl, List.append_nil] at one
  exact one

theorem reach_child (base : List FileName) (p : Path) {part : Part} (inner : part.Inner) :
    reach base (p.child part.bytes) = walk (reach base p) [part] := by
  rw [child, reach_join, reach_eq_walk (reach base p), inner.parts_bytes]

theorem reach_foldl_child (base : List FileName) (p : Path) {ps : List Part}
    (inner : ∀ part ∈ ps, part.Inner) :
    reach base (ps.foldl (fun (q : Path) part => q.child part.bytes) p) =
      walk (reach base p) ps := by
  induction ps generalizing p with
  | nil => rfl
  | cons part ps ih =>
      obtain ⟨here, later⟩ := List.forall_mem_cons.mp inner
      rw [List.foldl_cons, ih (p.child part.bytes) later, reach_child base p here, ← walk_append,
        List.singleton_append]

/-- The parts that lead somewhere else than the root or on the spot. -/
def namedParts (p : Path) : List Part :=
  p.parts.filter fun part => part ≠ .root ∧ part ≠ .current

theorem filter_inner {ps : List Part} (inner : ∀ part ∈ ps, part.Inner) :
    (ps.filter fun part => part ≠ .root ∧ part ≠ .current) = ps := by
  refine List.filter_eq_self.mpr fun part member => ?_
  cases inner part member <;> simp

theorem namedParts_cases (p : Path) : (∀ part ∈ p.namedParts, part.Inner) ∧
    (p.parts = .root :: p.namedParts ∨ p.parts = .current :: p.namedParts ∨
      p.parts = p.namedParts) := by
  obtain ⟨inner, allInner, parts⟩ := parts_cases p
  have named : p.namedParts = inner := by
    rcases parts with equal | equal | equal
    · rw [namedParts, equal, List.filter_cons_of_neg (by simp), filter_inner allInner]
    · rw [namedParts, equal, List.filter_cons_of_neg (by simp), filter_inner allInner]
    · rw [namedParts, equal, filter_inner allInner]
  rw [named]
  exact ⟨allInner, parts⟩

/-- The root in front says where to start, a dot in front says nothing. -/
theorem walk_namedParts (base : List FileName) (p : Path) :
    walk base p.parts = walk (if p.isAbsolute then [] else base) p.namedParts := by
  obtain ⟨allInner, equal | equal | equal⟩ := namedParts_cases p
  · have absolute : p.isAbsolute = true := by
      rw [isAbsolute_iff_head?_parts, equal]
      rfl
    rw [equal, absolute]
    rfl
  · have relative : p.isAbsolute = false := by
      rw [← Bool.not_eq_true, isAbsolute_iff_head?_parts, equal]
      simp
    rw [equal, relative]
    rfl
  · have relative : p.isAbsolute = false := by
      rw [← Bool.not_eq_true, isAbsolute_iff_head?_parts, equal]
      intro first
      cases allInner _ (List.mem_of_mem_head? first)
    rw [equal, relative]
    rfl

theorem reach_anchor (base : List FileName) (cwd p : Path) :
    reach base (anchor cwd p) = if p.isAbsolute then [] else reach base cwd := by
  unfold anchor
  cases p.isAbsolute with
  | true =>
      rw [Bool.not_true, if_neg Bool.false_ne_true, if_pos rfl]
      split <;> rfl
  | false => rfl

/-- The absolute spelling of a path leads from anywhere to where the path leads from the working
folder. -/
theorem reach_absolute? (base : List FileName) (cwd : Path) {p : Path} (filled : p.bytes ≠ []) :
    reach base ((absolute? cwd p).getD p) = reach (reach base cwd) p := by
  have full := reach_foldl_child base (anchor cwd p) (namedParts_cases p).1
  rw [reach_anchor, ← walk_namedParts, ← reach_eq_walk] at full
  rw [absolute?, if_neg (by simpa using filled)]
  dsimp only
  rw [Option.getD_some]
  split
  · -- A slash at the end is put back by a child without a name.
    rw [child, reach_join, reach_empty]
    exact full
  · exact full

end LintReport.Path
