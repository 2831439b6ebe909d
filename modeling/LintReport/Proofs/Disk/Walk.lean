import LintReport.Proofs.Disk.Leads
import LintReport.Proofs.Path.Walk

set_option autoImplicit false

/- A path without a file name leads to no file. Its last step is a dot, a double dot or the root,
and behind such a step a walk stands in a directory, whatever links it has met. -/
namespace LintReport

namespace Disk

open LintReport.Path (Part separator period)

variable {root : Node}

/-- A trail that can be walked: below each of its nodes lies a directory. -/
def Walkable (root : Node) : Trail → Prop
  | [] => True
  | _ :: below => (reached root below).isDirectory = true ∧ Walkable root below

theorem Walkable.tail {trail : Trail} (walkable : Walkable root trail) :
    Walkable root trail.tail := by
  cases trail with
  | nil => exact trivial
  | cons _ below => exact walkable.2

theorem Walkable.isDirectory_tail {trail : Trail} (walkable : Walkable root trail)
    (here : (reached root trail).isDirectory = true) :
    (reached root trail.tail).isDirectory = true := by
  cases trail with
  | nil => exact here
  | cons _ below => exact walkable.1

theorem Walkable.isDirectory_root {trail : Trail} (walkable : Walkable root trail)
    (here : (reached root trail).isDirectory = true) :
    (reached root []).isDirectory = true := by
  induction trail with
  | nil => exact here
  | cons _ below ih => exact ih walkable.2 walkable.1

/-- Steps that end in a directory: the last of them is no name, and if none is left the walk
stands in one already. -/
structure Bound (root : Node) (trail : Trail) (steps : List Part) : Prop where
  walkable : Walkable root trail
  arrived : steps = [] → (reached root trail).isDirectory = true
  last : ∀ n, steps.getLast? ≠ some (.name n)

theorem bound_of_ne_nil {trail : Trail} {steps : List Part} (walkable : Walkable root trail)
    (left : steps ≠ []) (last : ∀ n, steps.getLast? ≠ some (.name n)) : Bound root trail steps :=
  ⟨walkable, fun none => absurd none left, last⟩

theorem Bound.last_of_cons {trail : Trail} {step : Part} {rest : List Part}
    (bound : Bound root trail (step :: rest)) (n : FileName) :
    rest.getLast? ≠ some (.name n) := by
  intro equal
  cases rest with
  | nil => simp at equal
  | cons next rest => exact bound.last n (by rw [List.getLast?_cons_cons, equal])

theorem Bound.ne_nil_of_name {trail : Trail} {n : FileName} {rest : List Part}
    (bound : Bound root trail (.name n :: rest)) : rest ≠ [] := by
  rintro rfl
  exact bound.last n List.getLast?_singleton

/-- Taking one of them leaves such steps, also when it puts those of a link in front. -/
theorem Bound.step {links between : Nat} {trail middle : Trail} {step : Part}
    {more rest : List Part} (bound : Bound root trail (step :: rest))
    (taken : Step root links trail step more between middle) : Bound root middle (more ++ rest) := by
  cases taken with
  | root inside =>
      have here := bound.walkable.isDirectory_root inside
      exact ⟨trivial, fun _ => here, bound.last_of_cons⟩
  | current inside => exact ⟨bound.walkable, fun _ => inside, bound.last_of_cons⟩
  | parent inside =>
      have above := bound.walkable.isDirectory_tail inside
      exact ⟨bound.walkable.tail, fun _ => above, bound.last_of_cons⟩
  | name inside =>
      exact bound_of_ne_nil ⟨inside, bound.walkable⟩ bound.ne_nil_of_name bound.last_of_cons
  | link =>
      have left := bound.ne_nil_of_name
      refine bound_of_ne_nil bound.walkable ?_ ?_
      · simp [left]
      · intro n
        rw [List.getLast?_append_of_ne_nil _ left]
        exact bound.last_of_cons n

theorem Bound.leads {links left : Nat} {trail trail' : Trail} {steps : List Part}
    (bound : Bound root trail steps) (leads : Leads root links trail steps left trail') :
    (reached root trail').isDirectory = true := by
  induction leads with
  | arrived => exact bound.arrived rfl
  | step taken _ ih => exact ih (bound.step taken)

/-- The step that a piece between slashes asks for. -/
def stepOf (piece : List UInt8) : Part :=
  if piece = [period] then .current
  else if piece = [period, period] then .parent
  else .name (piece)

/-- The steps that the pieces of a path ask for. -/
def innerSteps (bytes : List UInt8) : List Part :=
  ((Text.splitOn separator bytes).filter fun piece => !piece.isEmpty).map stepOf

theorem stepsOf_eq (p : Path) :
    stepsOf p = (if p.isAbsolute then [Part.root] else []) ++ innerSteps p.bytes ++
      (if p.bytes.getLast? = some separator then [Part.current] else []) := rfl

theorem innerSteps_append_cons (a b : List UInt8) :
    innerSteps (a ++ separator :: b) = innerSteps a ++ innerSteps b := by
  simp only [innerSteps, Text.splitOn_append_cons, List.filter_append, List.map_append]

/-- Behind a folder, the steps of a relative path have those of the folder in front. -/
theorem stepsOf_join (folder : Path) : ∃ front, ∀ p : Path, p.bytes ≠ [] →
    stepsOf (folder.join p) = (if p.isAbsolute then [] else front) ++ stepsOf p := by
  by_cases empty : folder.bytes = []
  · refine ⟨[], fun p _ => ?_⟩
    rw [Path.join_of_empty empty, ite_self, List.nil_append]
  obtain ⟨before, _, cut⟩ := Path.exists_join_cut empty
  refine ⟨(if folder.isAbsolute then [Part.root] else []) ++ innerSteps before,
    fun p filled => ?_⟩
  cases anchored : p.isAbsolute with
  | true => rw [Path.join_of_isAbsolute folder anchored, if_pos rfl, List.nil_append]
  | false =>
      obtain ⟨spelled, same⟩ := cut p anchored
      have ends : (before ++ separator :: p.bytes).getLast? = p.bytes.getLast? := by
        rw [List.getLast?_append_of_ne_nil _ (List.cons_ne_nil _ _),
          List.getLast?_cons_of_ne_nil filled]
      rw [stepsOf_eq, stepsOf_eq, spelled, same, ends, innerSteps_append_cons, anchored]
      simp only [List.append_assoc, Bool.false_eq_true, if_false, List.nil_append]

theorem stepsOf_ne_nil {p : Path} (nonempty : p.bytes ≠ []) : stepsOf p ≠ [] := by
  rw [stepsOf_eq]
  cases bytes : p.bytes with
  | nil => exact absurd bytes nonempty
  | cons c rest =>
      by_cases slash : c = separator
      · have absolute : p.isAbsolute = true := Path.isAbsolute_iff.mpr ⟨rest, slash ▸ bytes⟩
        simp [absolute]
      · have first : innerSteps (c :: rest) ≠ [] := by
          unfold innerSteps
          rw [Text.splitOn, if_neg slash]
          cases Text.splitOn separator rest <;> simp
        simp [first]

theorem relativeParts_eq_filter (bytes : List UInt8) :
    Path.relativeParts bytes = (innerSteps bytes).filter (· ≠ .current) := by
  unfold Path.relativeParts innerSteps
  induction Text.splitOn separator bytes with
  | nil => rfl
  | cons piece pieces ih =>
      rw [List.filterMap_cons, ih]
      by_cases empty : piece = []
      · rw [empty]
        rfl
      rw [List.filter_cons_of_pos (by simpa using empty), List.map_cons, Path.innerPart?, stepOf]
      by_cases dot : piece = [period]
      · simp [dot]
      by_cases dots : piece = [period, period]
      · simp [dots]
      · simp [empty, dot, dots]

/-- Behind the root or a dot in front, the parts are those between slashes. -/
theorem exists_parts_eq (p : Path) :
    ∃ front, p.parts = front ++ Path.relativeParts p.bytes := by
  unfold Path.parts
  generalize p.bytes = bytes
  unfold Path.partsOf
  split
  · exact ⟨[.root], rfl⟩
  · exact ⟨[.current], rfl⟩
  · exact ⟨[.current], rfl⟩
  · exact ⟨[], rfl⟩

theorem getLast?_stepsOf {p : Path} (unnamed : p.fileName = none) (n : FileName) :
    (stepsOf p).getLast? ≠ some (.name n) := by
  intro last
  obtain ⟨front, parts⟩ := exists_parts_eq p
  have named : (Path.relativeParts p.bytes).getLast? = some (.name n) := by
    rw [stepsOf_eq] at last
    by_cases slash : p.bytes.getLast? = some separator
    · simp [slash] at last
    · rw [if_neg slash, List.append_nil] at last
      by_cases inner : innerSteps p.bytes = []
      · rw [inner, List.append_nil] at last
        split at last <;> simp at last
      · rw [List.getLast?_append_of_ne_nil _ inner] at last
        obtain ⟨before, steps⟩ := List.getLast?_eq_some_iff.mp last
        rw [relativeParts_eq_filter, steps, List.filter_append]
        simp
  have left : Path.relativeParts p.bytes ≠ [] := by
    intro none
    rw [none] at named
    cases named
  rw [Path.fileName, parts, List.getLast?_append_of_ne_nil _ left, named] at unnamed
  cases unnamed

theorem isFile_of_isDirectory {d : Disk} {p : Path} {trail : Trail}
    (located : d.locate p = .ok trail)
    (directory : (reached d.root trail).isDirectory = true) : d.isFile p = false := by
  have found : d.find? p = .ok (reached d.root trail) := by
    rw [find?, located]
    rfl
  cases node : reached d.root trail with
  | file content runnable readable =>
      rw [node] at directory
      cases directory
  | directory entries rights => rw [isFile, found, node]
  | link target => rw [isFile, found, node]

/-- A path that ends in no name leads to no file. -/
theorem isFile_of_fileName_none (d : Disk) {p : Path} (unnamed : p.fileName = none) :
    d.isFile p = false := by
  cases located : d.locate p with
  | error e =>
      rw [isFile, find?, located]
      rfl
  | ok trail =>
      obtain ⟨admitted, _, leads⟩ := locate_eq_ok_iff.mp located
      -- Behind whatever folder it is put, the path ends in the step that it ends in itself.
      obtain ⟨front, joined⟩ := stepsOf_join d.workingFolder
      have steps := joined p admitted.filled
      have some := stepsOf_ne_nil admitted.filled
      have start : Walkable d.root [] := trivial
      refine isFile_of_isDirectory located (Bound.leads (bound_of_ne_nil start ?_ ?_) leads)
      · simp [steps, some]
      · intro n
        rw [steps, List.getLast?_append_of_ne_nil _ some]
        exact getLast?_stepsOf unnamed n

end Disk

end LintReport
