import LintReport.PathPolicy
import LintReport.Proofs.Path.Walk

set_option autoImplicit false

/- What the policy for paths lets through. A text is judged by where it leads from the document,
so another spelling of the place gets the same answer. -/
namespace LintReport.PathPolicy

open LintReport.Path (IsName below parts_below reach reach_below reach_join reach_normalize)

variable (policy : PathPolicy) (p : Path)

theorem resolve?_eq_some (raw : String) :
    policy.resolve? raw = some p ↔ policy.absolutize raw = p ∧ policy.accepts p = true := by
  unfold resolve?
  dsimp only
  split
  · next accepted =>
      rw [Option.some.injEq]
      exact ⟨fun equal => ⟨equal, equal ▸ accepted⟩, And.left⟩
  · next rejected =>
      constructor
      · intro equal
        simp at equal
      · rintro ⟨rfl, accepted⟩
        exact absurd accepted rejected

theorem not_isExcluded_iff : policy.isExcluded p = false ↔
    ∀ pattern ∈ policy.excludes, pattern ≠ "" → ¬ pattern.toList <:+: p.text.toList := by
  unfold isExcluded
  rw [List.any_eq_false]
  refine forall₂_congr fun pattern _ => ?_
  rw [Bool.and_eq_true, Text.contains_iff, not_and, Bool.not_eq_true', ← Bool.not_eq_true,
    String.isEmpty_iff]

theorem isInside_iff : policy.isInside p = true ↔
    policy.folders = [] ∨ ∃ folder ∈ policy.folders, folder.path.parts <+: p.parts := by
  unfold isInside
  rw [Bool.or_eq_true, List.isEmpty_iff, List.any_eq_true]
  simp only [Path.isUnder, List.isPrefixOf_iff_prefix]

theorem accepts_iff : policy.accepts p = true ↔
    (∀ pattern ∈ policy.excludes, pattern ≠ "" → ¬ pattern.toList <:+: p.text.toList) ∧
    (policy.workspaceOnly = true → policy.folders ≠ [] →
      ∃ folder ∈ policy.folders, folder.path.parts <+: p.parts) := by
  rw [accepts, Bool.and_eq_true, Bool.not_eq_true', not_isExcluded_iff, Bool.or_eq_true,
    Bool.not_eq_true', isInside_iff]
  refine and_congr_right fun _ => ?_
  cases policy.workspaceOnly
  · simp
  · simp [← or_iff_not_imp_left]

/-- Where a text leads from the document: to the document itself when it is empty, else along
the text from the directory of the document. The outermost name is in front. -/
def placeOf (primary : Path) (raw : String) : List FileName :=
  if raw = "" then (reach [] primary).reverse
  else (reach (reach [] primary).tail ⟨raw⟩).reverse

variable {policy} in
/-- The directory of a document below the root is what it leads to without the last name. -/
theorem folder_of_primary {dirs : List FileName} {n : FileName} (named : ∀ m ∈ dirs ++ [n], IsName m)
    (primary : policy.primary = below (dirs ++ [n])) : policy.folder = below dirs := by
  have parts : policy.primary.parts.reverse = .name n :: (.root :: dirs.map .name).reverse := by
    rw [primary, parts_below named]
    simp
  rw [folder, Path.parent, parts]
  show ((some (Path.ofParts (Path.Part.root :: dirs.map .name).reverse.reverse)).getD _) = _
  rw [List.reverse_reverse]
  rfl

/-- A document below the root has a name in a directory. -/
theorem exists_of_isRooted {primary : Path} (rooted : primary.IsRooted)
    (inside : primary ≠ ⟨"/"⟩) : ∃ dirs n, (∀ m ∈ dirs ++ [n], IsName m) ∧
      primary = below (dirs ++ [n]) := by
  obtain ⟨names, named, equal⟩ := rooted.eq_below
  rcases List.eq_nil_or_concat' names with none | ⟨dirs, n, split⟩
  · rw [none] at equal
    exact absurd equal inside
  · rw [split] at named equal
    exact ⟨dirs, n, named, equal⟩

/-- A text means the path that is spelled as the place it leads to. -/
theorem absolutize_eq_below (rooted : policy.primary.IsRooted) (inside : policy.primary ≠ ⟨"/"⟩)
    (raw : String) : (∀ n ∈ placeOf policy.primary raw, IsName n) ∧
      policy.absolutize raw = below (placeOf policy.primary raw) := by
  obtain ⟨dirs, n, named, primary⟩ := exists_of_isRooted rooted inside
  have dirsNamed : ∀ m ∈ dirs, IsName m := fun m member =>
    named m (List.mem_append_left [n] member)
  by_cases empty : raw = ""
  · rw [absolutize, placeOf, if_pos empty, if_pos (by rw [empty]; rfl), primary,
      reach_below [] named, List.reverse_reverse]
    exact ⟨named, rfl⟩
  · have meant : policy.absolutize raw = ((below dirs).join ⟨raw⟩).normalize := by
      rw [absolutize, if_neg (by simpa using empty), folder_of_primary named primary]
    have absolute : (below dirs).isAbsolute = true := (Path.isRooted_below dirsNamed).absolute
    have rooted' : (policy.absolutize raw).IsRooted := by
      rw [meant]
      exact ⟨Path.isAbsolute_normalize (Path.isAbsolute_join absolute _),
        Path.isNormal_normalize _⟩
    have led : reach [] (policy.absolutize raw) = reach (reach [] policy.primary).tail ⟨raw⟩ := by
      rw [meant, reach_normalize, reach_join, reach_below [] dirsNamed, primary,
        reach_below [] named, List.reverse_append, List.reverse_singleton, List.singleton_append,
        List.tail_cons]
    obtain ⟨names, spelled⟩ := rooted'.eq_below_reach
    rw [placeOf, if_neg empty, ← led]
    exact ⟨fun m member => names m (List.mem_reverse.mp member), spelled⟩

/-- Below a folder lies what its names are in front of. -/
theorem parts_named_prefix {name : String} {path : Path} (absolute : path.isAbsolute = true)
    {names : List FileName} (named : ∀ n ∈ names, IsName n) :
    (WorkspaceFolder.named name path).path.parts <+: (below names).parts ↔
      (reach [] path).reverse <+: names := by
  have rooted : path.normalize.IsRooted :=
    ⟨Path.isAbsolute_normalize absolute, Path.isNormal_normalize path⟩
  obtain ⟨dirsNamed, spelled⟩ := rooted.eq_below_reach
  rw [reach_normalize] at dirsNamed spelled
  have injective : Function.Injective Path.Part.name := fun a b equal => Path.Part.name.inj equal
  rw [WorkspaceFolder.named, spelled, parts_below named,
    parts_below fun n member => dirsNamed n (List.mem_reverse.mp member), List.prefix_cons_inj,
    List.prefix_map_iff_of_injective injective]

/-- What the folders ask of a place, with their paths as they were written. -/
theorem bounded_iff (workspaceOnly : Bool) {folders : List (String × Path)}
    (absolute : ∀ f ∈ folders, f.2.isAbsolute = true) {names : List FileName}
    (named : ∀ n ∈ names, IsName n) :
    (workspaceOnly = true → (folders.map fun f => WorkspaceFolder.named f.1 f.2) ≠ [] →
      ∃ folder ∈ folders.map fun f => WorkspaceFolder.named f.1 f.2,
        folder.path.parts <+: (below names).parts) ↔
    (workspaceOnly = false ∨ folders = [] ∨
      ∃ f ∈ folders, (reach [] f.2).reverse <+: names) := by
  have under : (∃ folder ∈ folders.map fun f => WorkspaceFolder.named f.1 f.2,
      folder.path.parts <+: (below names).parts) ↔
      ∃ f ∈ folders, (reach [] f.2).reverse <+: names := by
    simp only [List.mem_map, exists_exists_and_eq_and]
    apply exists_congr
    intro f
    apply and_congr_right
    intro member
    exact parts_named_prefix (absolute f member) named
  rw [under, Ne, List.map_eq_nil_iff]
  cases workspaceOnly
  · simp
  · simp [← or_iff_not_imp_left]

/-- A text is let through by where it leads from the document alone. It means the path spelled
as that place, by names below the root, if no excluded text is a part of that path and, where
the workspace bounds the reports, the place lies in a folder. -/
theorem resolve?_placeOf (excludes : List String) (workspaceOnly : Bool)
    (folders : List (String × Path)) (absolute : ∀ f ∈ folders, f.2.isAbsolute = true)
    (primary : Path) (rooted : primary.IsRooted) (inside : primary ≠ ⟨"/"⟩) :
    let policy : PathPolicy :=
      ⟨excludes, workspaceOnly, folders.map fun f => .named f.1 f.2, primary⟩
    (∀ raw p, policy.resolve? raw = some p ↔
      p.bytes = Path.separator :: [Path.separator].intercalate (placeOf primary raw) ∧
      (∀ pattern ∈ excludes, pattern ≠ "" → ¬ pattern.toList <:+: p.text.toList) ∧
      (workspaceOnly = false ∨ folders = [] ∨
        ∃ f ∈ folders, (reach [] f.2).reverse <+: placeOf primary raw)) ∧
    (∀ raw, ∀ n ∈ placeOf primary raw, IsName n) ∧
    ∀ raw raw', placeOf primary raw = placeOf primary raw' →
      policy.resolve? raw = policy.resolve? raw' := by
  intro policy
  have meant (raw : String) : (∀ n ∈ placeOf primary raw, IsName n) ∧
      policy.absolutize raw = below (placeOf primary raw) :=
    absolutize_eq_below policy rooted inside raw
  have bounded := fun raw => bounded_iff workspaceOnly absolute (meant raw).1
  refine ⟨?_, fun raw => (meant raw).1, ?_⟩
  · intro raw p
    rw [resolve?_eq_some, accepts_iff, (meant raw).2]
    constructor
    · rintro ⟨rfl, clear, within⟩
      exact ⟨Path.bytes_below_eq _, clear, (bounded raw).mp within⟩
    · rintro ⟨spelled, clear, within⟩
      have equal : below (placeOf primary raw) = p := by
        rw [Path.mk.injEq, spelled, Path.bytes_below_eq]
      refine ⟨equal, clear, ?_⟩
      rw [← equal]
      exact (bounded raw).mpr within
  · intro raw raw' same
    rw [resolve?, resolve?, (meant raw).2, (meant raw').2, same]

/-- A header beside the directory of the document, spelled with steps that lead nowhere. Its
neighbours are excluded, or lie in a folder whose name only starts the same. -/
theorem resolve?_placeOf_header :
    let primary : Path := ⟨"/w/src/a.c"⟩
    let folders : List (String × Path) := [("w", ⟨"/w/./lib/.."⟩)]
    let policy : PathPolicy :=
      ⟨["", "/gen/"], true, folders.map fun f => .named f.1 f.2, primary⟩
    (∀ f ∈ folders, f.2.isAbsolute = true) ∧ primary.IsRooted ∧ primary ≠ ⟨"/"⟩ ∧
      placeOf primary "../gen//../inc/./b.h" = (["w", "inc", "b.h"] : List FileName) ∧
      policy.resolve? "../gen//../inc/./b.h" = some ⟨"/w/inc/b.h"⟩ ∧
      policy.resolve? "../inc/../gen/b.h" = none ∧ policy.resolve? "../../w2/b.h" = none := by
  intro primary folders policy
  have absolute : ∀ f ∈ folders, f.2.isAbsolute = true := by decide +kernel
  have rooted : primary.IsRooted :=
    ⟨by decide +kernel, show primary.normalize = primary by decide +kernel⟩
  have inside : primary ≠ ⟨"/"⟩ := by decide
  obtain ⟨resolved, _, _⟩ :=
    resolve?_placeOf ["", "/gen/"] true folders absolute primary rooted inside
  have place : placeOf primary "../gen//../inc/./b.h" = (["w", "inc", "b.h"] : List FileName) := by
    decide +kernel
  refine ⟨absolute, rooted, inside, place, ?_, ?_, ?_⟩
  · apply (resolved _ _).mpr
    rw [place]
    decide +kernel
  · apply Option.eq_none_iff_forall_ne_some.mpr
    intro p found
    obtain ⟨spelled, clear, _⟩ := (resolved _ _).mp found
    refine clear "/gen/" (by decide) (by decide) ?_
    rw [Path.text, spelled]
    decide +kernel
  · apply Option.eq_none_iff_forall_ne_some.mpr
    intro p found
    obtain ⟨_, _, bounded⟩ := (resolved _ _).mp found
    revert bounded
    decide +kernel

end LintReport.PathPolicy
