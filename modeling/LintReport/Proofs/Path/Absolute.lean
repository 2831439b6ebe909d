import LintReport.Proofs.Path.Extension

set_option autoImplicit false

/- Absolute paths. Joining, making absolute and folding keep a path absolute. In normal form an
absolute path is a list of names below the root. -/
namespace LintReport.Path

theorem isAbsolute_iff {p : Path} : p.isAbsolute = true ↔ ∃ rest, p.bytes = separator :: rest := by
  unfold isAbsolute
  split
  · next rest spelled => exact iff_of_true rfl ⟨rest, spelled⟩
  · next relative =>
      exact iff_of_false Bool.false_ne_true fun ⟨rest, spelled⟩ => relative rest spelled

/-- Only an absolute path has the root among its parts. -/
theorem isAbsolute_iff_head?_parts {p : Path} :
    p.isAbsolute = true ↔ p.parts.head? = some .root := by
  unfold isAbsolute parts partsOf
  split
  · next rest spelled =>
      rw [spelled]
      exact iff_of_true rfl rfl
  · next relative =>
      refine iff_of_false Bool.false_ne_true fun rooted => ?_
      split at rooted
      · next rest spelled => exact relative rest spelled
      · cases rooted
      · cases rooted
      · cases inner_of_mem_relativeParts (List.mem_of_mem_head? rooted)

theorem isAbsolute_join {p : Path} (absolute : p.isAbsolute = true) (rest : Path) :
    (p.join rest).isAbsolute = true := by
  obtain ⟨below, spelled⟩ := isAbsolute_iff.mp absolute
  unfold join
  split
  · assumption
  · split
    · exact isAbsolute_iff.mpr ⟨below ++ rest.bytes, by simp [spelled]⟩
    · exact isAbsolute_iff.mpr ⟨below ++ separator :: rest.bytes, by simp [spelled]⟩

theorem isAbsolute_foldl_child {p : Path} (absolute : p.isAbsolute = true) (ps : List Part) :
    (ps.foldl (fun (q : Path) part => q.child part.bytes) p).isAbsolute = true := by
  induction ps generalizing p with
  | nil => exact absolute
  | cons part ps ih => exact ih (isAbsolute_join absolute ⟨part.bytes⟩)

theorem isAbsolute_absolute? {p : Path} (absolute : p.isAbsolute = true) (workingFolder : Path) :
    ((absolute? workingFolder p).getD p).isAbsolute = true := by
  unfold absolute?
  split
  · exact absolute
  · simp only [Option.getD_some]
    have start : (anchor workingFolder p).isAbsolute = true := by
      rw [anchor, absolute, Bool.not_true, if_neg Bool.false_ne_true]
      split <;> rfl
    have full := isAbsolute_foldl_child start
      (p.parts.filter fun part => part ≠ .root ∧ part ≠ .current)
    split
    · exact isAbsolute_join full ⟨[]⟩
    · exact full

/-- Folding never takes the root away. -/
theorem getLast?_fold {stack : List Part} (rooted : stack.getLast? = some .root) (part : Part) :
    (fold stack part).getLast? = some .root := by
  have onTop (top : Part) : (top :: stack).getLast? = some .root := by
    rw [List.getLast?_cons, rooted]
    rfl
  cases part with
  | root => exact onTop .root
  | current => exact rooted
  | name n => exact onTop (.name n)
  | parent =>
      rw [fold.eq_def]
      dsimp only
      split
      · next n rest =>
          cases rest with
          | nil => cases rooted
          | cons below rest => rwa [List.getLast?_cons_cons] at rooted
      · exact rooted
      · exact onTop .parent

theorem getLast?_foldl_fold {stack : List Part} (rooted : stack.getLast? = some .root)
    (ps : List Part) : (ps.foldl fold stack).getLast? = some .root := by
  induction ps generalizing stack with
  | nil => exact rooted
  | cons part ps ih => exact ih (getLast?_fold rooted part)

theorem isAbsolute_normalize {p : Path} (absolute : p.isAbsolute = true) :
    p.normalize.isAbsolute = true := by
  have head := isAbsolute_iff_head?_parts.mp absolute
  have rooted : (normalParts p.parts).head? = some .root := by
    obtain ⟨below, parts⟩ := List.head?_eq_some_iff.mp head
    rw [normalParts, List.head?_reverse, parts, List.foldl_cons]
    exact getLast?_foldl_fold rfl below
  rw [isAbsolute_iff_head?_parts, parts_normalize, if_neg]
  · exact rooted
  · intro none
    rw [none] at rooted
    cases rooted

/-- The absolute path along some names, the outermost in front. -/
def below (names : List FileName) : Path := ofParts (.root :: names.map Part.name)

theorem bytes_below (names : List FileName) :
    (below names).bytes = separator :: spelled (names.map Part.name) :=
  bytes_ofParts_root _

theorem parts_below {names : List FileName} (named : ∀ n ∈ names, IsName n) :
    (below names).parts = .root :: names.map Part.name := by
  rw [Path.parts, bytes_below, partsOf_separator, relativeParts_spelled]
  intro part member
  obtain ⟨n, inNames, rfl⟩ := List.mem_map.mp member
  exact .name (named n inNames)

/-- An absolute path in normal form. -/
structure IsRooted (p : Path) : Prop where
  absolute : p.isAbsolute = true
  normal : p.IsNormal

theorem isRooted_below {names : List FileName} (named : ∀ n ∈ names, IsName n) :
    (below names).IsRooted := by
  have folded : Folded (names.reverse.map Part.name ++ [.root]) :=
    ⟨names.reverse, [.root], rfl, .root, fun n member => named n (List.mem_reverse.mp member)⟩
  have parts : (names.reverse.map Part.name ++ [Part.root]).reverse =
      .root :: names.map Part.name := by
    simp
  refine ⟨isAbsolute_iff.mpr ⟨_, bytes_below names⟩, ?_⟩
  have normal := isNormal_ofParts folded (by simp)
  rw [parts] at normal
  exact normal

theorem IsRooted.eq_below {p : Path} (rooted : p.IsRooted) :
    ∃ names, (∀ n ∈ names, IsName n) ∧ p = below names := by
  have head := isAbsolute_iff_head?_parts.mp rooted.absolute
  rcases rooted.normal.folded with dot | ⟨stack, folded, parts⟩
  · rw [dot] at head
    cases head
  · obtain ⟨names, base, split, based, named⟩ := folded
    have named' : ∀ n ∈ names.reverse, IsName n := fun n member =>
      named n (List.mem_reverse.mp member)
    refine ⟨names.reverse, named', rooted.normal.eq_of_same (isRooted_below named').normal ?_⟩
    cases based with
    | root =>
        rw [Same, parts, parts_below named', split]
        simp
    | up count =>
        rw [parts, split] at head
        have first := List.mem_of_mem_head? head
        simp [List.mem_replicate] at first

theorem spelled_append_singleton {ps : List Part} (some : ps ≠ []) (part : Part) :
    spelled (ps ++ [part]) = spelled ps ++ separator :: part.bytes := by
  induction ps with
  | nil => exact absurd rfl some
  | cons first ps ih =>
      rw [List.cons_append, spelled_cons, spelled_cons]
      cases ps with
      | nil => simp [spelled_cons]
      | cons next ps =>
          rw [ih (List.cons_ne_nil next ps)]
          simp

/-- What stands in front of the next slash: nothing at the root, else the path so far. -/
def folderText (names : List FileName) : List UInt8 :=
  if names = [] then [] else (below names).bytes

theorem bytes_below_append_singleton (names : List FileName) (n : FileName) :
    (below (names ++ [n])).bytes = folderText names ++ separator :: n := by
  unfold folderText
  split
  · next none =>
      rw [none, bytes_below]
      simp [spelled, Part.bytes]
  · next some =>
      have some' : names.map Part.name ≠ [] := by simpa using some
      rw [bytes_below, bytes_below, List.map_append, List.map_singleton,
        spelled_append_singleton some', List.cons_append]
      rfl

/-- The last slash cuts a text in one way. -/
theorem before_last_slash {base base' piece piece' : List UInt8} (whole : separator ∉ piece)
    (whole' : separator ∉ piece') (same : base ++ separator :: piece = base' ++ separator :: piece') :
    base = base' := by
  rcases List.append_eq_append_iff.mp same with ⟨more, longer, tail⟩ | ⟨more, longer, tail⟩
  · cases more with
    | nil => rw [longer, List.append_nil]
    | cons c more =>
        have inside := (List.cons.inj tail).2
        exact absurd (inside ▸ List.mem_append_right more List.mem_cons_self) whole
  · cases more with
    | nil => rw [longer, List.append_nil]
    | cons c more =>
        have inside := (List.cons.inj tail).2
        exact absurd (inside ▸ List.mem_append_right more List.mem_cons_self) whole'

theorem IsName.isAbsolute {n : FileName} (named : IsName n) : (⟨n⟩ : Path).isAbsolute = false := by
  rw [← Bool.not_eq_true, isAbsolute_iff]
  rintro ⟨rest, rfl⟩
  exact named.2.1 List.mem_cons_self

theorem join_of_isAbsolute (p : Path) {rest : Path} (absolute : rest.isAbsolute = true) :
    p.join rest = rest := if_pos absolute

theorem join_of_empty {p : Path} (empty : p.bytes = []) (rest : Path) :
    p.join rest = rest := by
  simp [join, empty]

theorem bytes_join_of_slash {p rest : Path} (relative : rest.isAbsolute = false)
    (slash : p.bytes.getLast? = some separator) :
    (p.join rest).bytes = p.bytes ++ rest.bytes := by
  simp [join, relative, slash]

theorem bytes_join_of_no_slash {p rest : Path} (relative : rest.isAbsolute = false)
    (filled : p.bytes ≠ []) (slash : p.bytes.getLast? ≠ some separator) :
    (p.join rest).bytes = p.bytes ++ separator :: rest.bytes := by
  simp [join, relative, filled, slash]

/-- A child lies one name further down. -/
theorem child_below {names : List FileName} (named : ∀ n ∈ names, IsName n) {n : FileName}
    (named' : IsName n) : (below names).child n = below (names ++ [n]) := by
  rw [child, Path.mk.injEq, bytes_below_append_singleton]
  rcases List.eq_nil_or_concat' names with none | ⟨above, last, init⟩
  · subst none
    exact bytes_join_of_slash named'.isAbsolute rfl
  · have some : names ≠ [] := init ▸ List.concat_ne_nil last above
    have text : (below names).bytes = folderText above ++ separator :: last :=
      init ▸ bytes_below_append_singleton above last
    have slash : (below names).bytes.getLast? ≠ Option.some separator := by
      intro last'
      obtain ⟨before, ends⟩ := List.getLast?_eq_some_iff.mp last'
      rw [text] at ends
      obtain ⟨notEmpty, noSlash, _⟩ := named last (init ▸ List.mem_concat_self)
      have same := before_last_slash noSlash List.not_mem_nil ends
      rw [same, List.append_cancel_left_eq] at ends
      exact notEmpty (List.cons.inj ends).2
    rw [folderText, if_neg some]
    exact bytes_join_of_no_slash named'.isAbsolute (by simp [text]) slash

theorem IsRooted.child {p : Path} (rooted : p.IsRooted) {n : FileName} (named : IsName n) :
    (p.child n).IsRooted := by
  obtain ⟨names, allNamed, rfl⟩ := rooted.eq_below
  rw [child_below allNamed named]
  refine isRooted_below fun m member => ?_
  rcases List.mem_append.mp member with above | last
  · exact allNamed m above
  · exact List.mem_singleton.mp last ▸ named

/-- What stands in front of the last slash of a path along names leads to all names but the last. -/
theorem cut_below {names : List FileName} (named : ∀ n ∈ names, IsName n) {base piece : List UInt8}
    (whole : separator ∉ piece) (cut : (below names).bytes = base ++ separator :: piece) :
    base = folderText names.dropLast := by
  rcases List.eq_nil_or_concat' names with none | ⟨above, last, init⟩
  · subst none
    have same : base ++ separator :: piece = [] ++ separator :: [] := cut.symm
    exact before_last_slash whole List.not_mem_nil same
  · rw [init, List.dropLast_concat]
    rw [init, bytes_below_append_singleton] at cut
    have last' := named last (init ▸ List.mem_concat_self)
    exact before_last_slash whole last'.2.1 cut.symm

end LintReport.Path
