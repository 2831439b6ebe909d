import LintReport.Proofs.Path.Absolute

set_option autoImplicit false

/- Where a path leads, read off its bytes alone. Folding takes away steps that lead nowhere and
names that are left again, so a normal form leads where the path does; and what a normal form
leads to from two directories tells all of its parts. -/
namespace LintReport.Path

/-- One piece of a path between slashes, walked from a directory given by its names, the
innermost in front. -/
def stride (stack : List FileName) (piece : List UInt8) : List FileName :=
  if piece = [] ∨ piece = [period] then stack
  else if piece = [period, period] then stack.tail
  else piece :: stack

/-- What a path leads to from the directory `base`. An absolute one starts at the root. -/
def reach (base : List FileName) (p : Path) : List FileName :=
  (Text.splitOn separator p.bytes).foldl stride (if p.isAbsolute then [] else base)

theorem foldl_stride_relativeParts (base : List FileName) (bytes : List UInt8) :
    (Text.splitOn separator bytes).foldl stride base = walk base (relativeParts bytes) := by
  unfold relativeParts
  induction Text.splitOn separator bytes generalizing base with
  | nil => rfl
  | cons piece pieces ih =>
      rw [List.foldl_cons, ih, List.filterMap_cons, stride, innerPart?]
      by_cases noStep : piece = [] ∨ piece = [period]
      · rw [if_pos noStep, if_pos noStep]
      by_cases dots : piece = [period, period]
      · rw [if_neg noStep, if_neg noStep, if_pos dots, if_pos dots]
        rfl
      · rw [if_neg noStep, if_neg noStep, if_neg dots, if_neg dots]
        rfl

theorem reach_eq_walk (base : List FileName) (p : Path) : reach base p = walk base p.parts := by
  unfold reach isAbsolute parts partsOf
  split
  · next rest rooted =>
      change p.bytes = separator :: rest at rooted
      rw [rooted, if_pos rfl, Text.splitOn, if_pos rfl, List.foldl_cons,
        foldl_stride_relativeParts]
      rfl
  · next relative =>
      rw [if_neg Bool.false_ne_true]
      split
      · next rest rooted => exact absurd rooted (relative rest)
      · next dot =>
          rw [dot]
          rfl
      · next rest dot =>
          change p.bytes = [period] ++ separator :: rest at dot
          have pieces : Text.splitOn separator ([period] ++ separator :: rest) =
              [period] :: Text.splitOn separator rest :=
            Text.splitOn_append_cons separator [period] rest
          rw [dot, pieces, List.foldl_cons, foldl_stride_relativeParts]
          rfl
      · exact foldl_stride_relativeParts base p.bytes

/-! Paths behind paths. -/

/-- Whether a path is absolute shows in its first byte. -/
theorem isAbsolute_congr {p q : Path} (same : p.bytes.head? = q.bytes.head?) :
    p.isAbsolute = q.isAbsolute := by
  have slash (r : Path) : r.isAbsolute = true ↔ r.bytes.head? = some separator := by
    rw [isAbsolute_iff, List.head?_eq_some_iff]
  rw [Bool.eq_iff_iff, slash, slash, same]

theorem reach_of_isAbsolute {p : Path} (absolute : p.isAbsolute = true) (base base' : List FileName) :
    reach base p = reach base' p := by
  unfold reach
  rw [if_pos absolute, if_pos absolute]

/-- A slash cuts a walk in two. -/
theorem reach_cut (base : List FileName) {p : Path} {before after : List UInt8}
    (cut : p.bytes = before ++ separator :: after) :
    reach base p = (Text.splitOn separator after).foldl stride
      ((Text.splitOn separator before).foldl stride (if p.isAbsolute then [] else base)) := by
  rw [reach, cut, Text.splitOn_append_cons, List.foldl_append]

/-- What a filled path puts in front of a relative one: its bytes up to a slash, which it has
already or is given. -/
theorem exists_join_cut {p : Path} (filled : p.bytes ≠ []) :
    ∃ before, (p.bytes = before ∨ p.bytes = before ++ [separator]) ∧
      ∀ rest : Path, rest.isAbsolute = false →
        (p.join rest).bytes = before ++ separator :: rest.bytes ∧
          (p.join rest).isAbsolute = p.isAbsolute := by
  by_cases slash : p.bytes.getLast? = some separator
  · obtain ⟨before, ends⟩ := List.getLast?_eq_some_iff.mp slash
    refine ⟨before, Or.inr ends, fun rest relative => ?_⟩
    have joined : (p.join rest).bytes = before ++ separator :: rest.bytes := by
      rw [bytes_join_of_slash relative slash, ends, List.append_assoc, List.singleton_append]
    refine ⟨joined, isAbsolute_congr ?_⟩
    rw [joined, ends]
    cases before <;> rfl
  · refine ⟨p.bytes, Or.inl rfl, fun rest relative => ?_⟩
    have joined := bytes_join_of_no_slash relative filled slash
    refine ⟨joined, isAbsolute_congr ?_⟩
    rw [joined, List.head?_append_of_ne_nil _ filled]

/-- A path behind another is walked from where that one leads. -/
theorem reach_join (base : List FileName) (p rest : Path) :
    reach base (p.join rest) = reach (reach base p) rest := by
  by_cases absolute : rest.isAbsolute = true
  · rw [join_of_isAbsolute p absolute]
    exact reach_of_isAbsolute absolute _ _
  have relative : rest.isAbsolute = false := by simpa using absolute
  by_cases empty : p.bytes = []
  · obtain rfl : p = ⟨[]⟩ := congrArg Path.mk empty
    rw [join_of_empty rfl]
    rfl
  have behind (base' : List FileName) :
      reach base' rest = (Text.splitOn separator rest.bytes).foldl stride base' := by
    rw [reach, relative, if_neg Bool.false_ne_true]
  obtain ⟨before, spelled, cut⟩ := exists_join_cut empty
  obtain ⟨joined, anchored⟩ := cut rest relative
  rw [reach_cut base joined, anchored, behind]
  rcases spelled with plain | slashed
  · rw [reach, plain]
  · rw [reach_cut base slashed]
    rfl

/-! Folding. -/

/-- What a step is folded into leads where it would lead itself. -/
theorem walk_fold (base : List FileName) (stack : List Part) (part : Part) :
    walk base (fold stack part).reverse = walk base (stack.reverse ++ [part]) := by
  rw [walk_append]
  cases part with
  | root =>
      show walk base (.root :: stack).reverse = _
      rw [List.reverse_cons, walk_append]
  | name n =>
      show walk base (.name n :: stack).reverse = _
      rw [List.reverse_cons, walk_append]
  | current => rfl
  | parent =>
      -- Above a name the step takes it away, and at the root it goes nowhere.
      rw [fold.eq_def]
      dsimp only
      split
      · next n rest =>
          rw [List.reverse_cons, walk_append]
          rfl
      · next rest =>
          rw [List.reverse_cons, walk_append]
          rfl
      · rw [List.reverse_cons, walk_append]

theorem walk_foldl_fold (base : List FileName) (stack ps : List Part) :
    walk base (ps.foldl fold stack).reverse = walk base (stack.reverse ++ ps) := by
  induction ps generalizing stack with
  | nil => rw [List.foldl_nil, List.append_nil]
  | cons part ps ih =>
      rw [List.foldl_cons, ih, walk_append, walk_fold, ← walk_append, List.append_assoc,
        List.singleton_append]

theorem walk_normalParts (base : List FileName) (ps : List Part) :
    walk base (normalParts ps) = walk base ps :=
  walk_foldl_fold base [] ps

/-- A normal form leads where the path does, from every directory. -/
theorem reach_normalize (base : List FileName) (p : Path) :
    reach base p.normalize = reach base p := by
  rw [reach_eq_walk, reach_eq_walk, ← walk_normalParts base p.parts, parts_normalize]
  by_cases nowhere : normalParts p.parts = []
  · rw [if_pos nowhere, nowhere]
    rfl
  · rw [if_neg nowhere]

/-! What folded parts lead to. -/

theorem walk_names (base names : List FileName) :
    walk base (names.map Part.name).reverse = names ++ base := by
  induction names with
  | nil => rfl
  | cons n names ih =>
      rw [List.map_cons, List.reverse_cons, walk_append, ih]
      rfl

theorem walk_replicate_parent (base : List FileName) (count : Nat) :
    walk base (List.replicate count .parent) = base.drop count := by
  induction count generalizing base with
  | zero => rfl
  | succ count ih =>
      rw [List.replicate_succ, walk, ih, List.drop_tail]

/-- A name to go down by. -/
abbrev someName : FileName := [0x64]

/-- Where a stack begins shows in how far it leads: one at the root from anywhere to the root,
one some directories up that much less deep. -/
theorem Base.eq_of_depth {base base' : List Part} (based : Base base) (based' : Base base')
    (same : ∀ depth, (walk (List.replicate depth someName) base.reverse).length =
      (walk (List.replicate depth someName) base'.reverse).length) : base = base' := by
  have rooted (depth : Nat) : (walk (List.replicate depth someName) [Part.root].reverse).length = 0 :=
    rfl
  have upward (depth count : Nat) :
      (walk (List.replicate depth someName) (List.replicate count Part.parent).reverse).length =
        depth - count := by
    rw [List.reverse_replicate, walk_replicate_parent, List.length_drop, List.length_replicate]
  cases based with
  | root =>
      cases based' with
      | root => rfl
      | up count =>
          have depths := same (count + 1)
          rw [rooted, upward] at depths
          omega
  | up count =>
      cases based' with
      | root =>
          have depths := same (count + 1)
          rw [rooted, upward] at depths
          omega
      | up count' =>
          have depths := same (count + count' + 1)
          rw [upward, upward] at depths
          rw [show count = count' by omega]

theorem Base.walk_nil {base : List Part} (based : Base base) : walk [] base.reverse = [] := by
  cases based with
  | root => rfl
  | up count => rw [List.reverse_replicate, walk_replicate_parent, List.drop_nil]

/-- Two folded stacks that lead to the same from every directory are the same. The names show
from the root, and what is below them from far enough down. -/
theorem Folded.eq_of_walk {stack stack' : List Part} (folded : Folded stack)
    (folded' : Folded stack')
    (same : ∀ base, (∀ n ∈ base, IsName n) → walk base stack.reverse = walk base stack'.reverse) :
    stack = stack' := by
  obtain ⟨names, base, rfl, based, _⟩ := folded
  obtain ⟨names', base', rfl, based', _⟩ := folded'
  have ends (dirs : List FileName) (named : ∀ n ∈ dirs, IsName n) :
      names ++ walk dirs base.reverse = names' ++ walk dirs base'.reverse := by
    have walked := same dirs named
    rw [List.reverse_append, List.reverse_append, walk_append, walk_append, walk_names,
      walk_names] at walked
    exact walked
  have equal : names = names' := by
    have atRoot := ends [] (by simp)
    rwa [based.walk_nil, based'.walk_nil, List.append_nil, List.append_nil] at atRoot
  rw [equal, based.eq_of_depth based']
  intro depth
  have named : ∀ n ∈ List.replicate depth someName, IsName n := by
    intro n member
    rw [List.eq_of_mem_replicate member]
    decide
  have below := ends _ named
  rw [equal] at below
  rw [List.append_cancel_left below]

/-- Paths that lead to the same from every directory have one normal form. -/
theorem normalize_eq_of_reach {p q : Path}
    (same : ∀ base, (∀ n ∈ base, IsName n) → reach base p = reach base q) :
    p.normalize = q.normalize := by
  apply normalize_congr
  obtain ⟨stack, folded, normal⟩ := folded_normalParts p
  obtain ⟨stack', folded', normal'⟩ := folded_normalParts q
  rw [normal, normal']
  apply congrArg List.reverse
  apply folded.eq_of_walk folded'
  intro base named
  rw [← normal, ← normal', walk_normalParts, walk_normalParts, ← reach_eq_walk, ← reach_eq_walk]
  exact same base named

/-! How a normal form is spelled. -/

theorem not_mem_fold {stack : List Part} {part : Part} (rootless : .root ∉ stack)
    (other : part ≠ .root) : .root ∉ fold stack part := by
  cases part with
  | root => exact absurd rfl other
  | current => exact rootless
  | name n => simp [fold, rootless]
  | parent =>
      rw [fold.eq_def]
      dsimp only
      split
      · exact fun member => rootless (List.mem_cons_of_mem _ member)
      · exact rootless
      · simp [rootless]

theorem not_mem_foldl_fold {stack ps : List Part} (rootless : .root ∉ stack)
    (others : .root ∉ ps) : .root ∉ ps.foldl fold stack := by
  induction ps generalizing stack with
  | nil => exact rootless
  | cons part ps ih =>
      obtain ⟨other, rest⟩ := not_or.mp (List.mem_cons.not.mp others)
      exact ih (not_mem_fold rootless (Ne.symm other)) rest

theorem not_mem_parts {p : Path} (relative : p.isAbsolute = false) : .root ∉ p.parts := by
  have first : p.parts.head? ≠ some .root := by
    intro rooted
    rw [← isAbsolute_iff_head?_parts, relative] at rooted
    exact Bool.false_ne_true rooted
  obtain ⟨inner, allInner, equal | equal | equal⟩ := parts_cases p
  · rw [equal] at first
    exact absurd rfl first
  · rw [equal, List.mem_cons, not_or]
    exact ⟨by decide, fun member => nomatch allInner _ member⟩
  · rw [equal]
    exact fun member => nomatch allInner _ member

theorem not_mem_normalParts {p : Path} (relative : p.isAbsolute = false) :
    .root ∉ normalParts p.parts := by
  rw [normalParts, List.mem_reverse]
  exact not_mem_foldl_fold List.not_mem_nil (not_mem_parts relative)

theorem isAbsolute_normalize_eq (p : Path) : p.normalize.isAbsolute = p.isAbsolute := by
  cases anchored : p.isAbsolute with
  | true => exact isAbsolute_normalize anchored
  | false =>
      rw [← Bool.not_eq_true, isAbsolute_iff_head?_parts, parts_normalize]
      intro rooted
      split at rooted
      · cases rooted
      · exact not_mem_normalParts anchored (List.mem_of_mem_head? rooted)

theorem map_bytes_names (names : List FileName) :
    (names.map Part.name).map Part.bytes = names := by
  rw [List.map_map]
  exact List.map_id names

theorem bytes_below_eq (names : List FileName) :
    (below names).bytes = separator :: [separator].intercalate names := by
  rw [bytes_below, spelled, map_bytes_names]

theorem reach_below (base : List FileName) {names : List FileName} (named : ∀ n ∈ names, IsName n) :
    reach base (below names) = names.reverse := by
  have walked := walk_names [] names.reverse
  rw [List.map_reverse, List.reverse_reverse, List.append_nil] at walked
  rw [reach_eq_walk, parts_below named, walk, walked]

/-- An absolute path in normal form is spelled as what it leads to. -/
theorem IsRooted.eq_below_reach {p : Path} (rooted : p.IsRooted) :
    (∀ n ∈ reach [] p, IsName n) ∧ p = below (reach [] p).reverse := by
  obtain ⟨names, named, rfl⟩ := rooted.eq_below
  rw [reach_below [] named, List.reverse_reverse]
  exact ⟨fun n member => named n (List.mem_reverse.mp member), rfl⟩

/-- The normal form of an absolute path holds names only. -/
theorem bytes_normalize_of_absolute {p : Path} (absolute : p.isAbsolute = true) :
    ∃ names, (∀ n ∈ names, IsName n) ∧
      p.normalize.bytes = separator :: [separator].intercalate names := by
  have rooted : p.normalize.IsRooted := ⟨isAbsolute_normalize absolute, isNormal_normalize p⟩
  obtain ⟨names, named, spelled⟩ := rooted.eq_below
  refine ⟨names, named, ?_⟩
  rw [spelled, bytes_below_eq]

/-- The normal form of a relative path is a dot, or some double dots and names behind them. -/
theorem bytes_normalize_of_relative {p : Path} (relative : p.isAbsolute = false) :
    p.normalize.bytes = [period] ∨
      ∃ count names, (∀ n ∈ names, IsName n) ∧ 0 < count + names.length ∧
        p.normalize.bytes =
          [separator].intercalate (List.replicate count [period, period] ++ names) := by
  obtain ⟨stack, ⟨names, base, rfl, based, named⟩, normal⟩ := folded_normalParts p
  have rootless := not_mem_normalParts relative
  unfold normalize
  rw [normal] at rootless ⊢
  cases based with
  | root => simp at rootless
  | up count =>
      rw [List.reverse_append, List.reverse_replicate, ← List.map_reverse] at rootless ⊢
      split
      · exact Or.inl rfl
      · next some =>
          refine Or.inr ⟨count, names.reverse, ?_, ?_, ?_⟩
          · intro n member
            exact named n (List.mem_reverse.mp member)
          · apply Nat.pos_of_ne_zero
            intro none
            obtain ⟨up, down⟩ := Nat.add_eq_zero_iff.mp none
            rw [up, List.eq_nil_of_length_eq_zero down] at some
            exact some rfl
          · unfold ofParts
            split
            · next rest rooted =>
                rw [rooted] at rootless
                exact absurd List.mem_cons_self rootless
            · dsimp only
              rw [spelled, List.map_append, List.map_replicate, map_bytes_names]
              rfl

/-- A normal form leads where its path does, from every directory. It is a dot, or has no dot in
it, and double dots only at the front of a relative path. It is the only normal form that leads
there: two paths have the same one when they lead to the same from every directory, and so it
is its own. -/
theorem normalize_canonical (p : Path) :
    (∀ base, reach base p.normalize = reach base p) ∧
    (p.normalize.isAbsolute = p.isAbsolute) ∧
    (p.isAbsolute = true → ∃ names, (∀ n ∈ names, IsName n) ∧
      p.normalize.bytes = separator :: [separator].intercalate names) ∧
    (p.isAbsolute = false → p.normalize.bytes = [period] ∨
      ∃ count names, (∀ n ∈ names, IsName n) ∧ 0 < count + names.length ∧
        p.normalize.bytes =
          [separator].intercalate (List.replicate count [period, period] ++ names)) ∧
    (∀ q : Path, (Same p.normalize q.normalize ↔ p.normalize = q.normalize) ∧
      (p.normalize = q.normalize ↔
        ∀ base, (∀ n ∈ base, IsName n) → reach base p = reach base q)) ∧
    p.normalize.normalize = p.normalize := by
  refine ⟨fun base => reach_normalize base p, isAbsolute_normalize_eq p,
    bytes_normalize_of_absolute, bytes_normalize_of_relative, ?_, normalize_normalize p⟩
  intro q
  refine ⟨⟨?_, ?_⟩, ?_, normalize_eq_of_reach⟩
  · exact (isNormal_normalize p).eq_of_same (isNormal_normalize q)
  · intro equal
    rw [equal]
  · intro equal base _
    rw [← reach_normalize base p, equal, reach_normalize]

end LintReport.Path
