set_option autoImplicit false

/- Occurrences of a pattern in a text, and texts cut at a separator. -/
namespace LintReport.Text

variable {α : Type} [DecidableEq α]

def contains (pattern : List Char) : List Char → Bool
  | [] => pattern.isEmpty
  | c :: rest => pattern.isPrefixOf (c :: rest) || contains pattern rest

theorem contains_iff (pattern s : List Char) :
    contains pattern s = true ↔ pattern <:+: s := by
  induction s with
  | nil => simp [contains]
  | cons c rest ih =>
      simp only [contains, Bool.or_eq_true, ih, List.isPrefixOf_iff_prefix, List.infix_cons_iff]

/-- Puts `new` in the place of each occurrence of `pattern`, from left to right,
skipping the `skip` characters that belong to an occurrence already replaced. -/
def replaceFrom (pattern new : List Char) : (skip : Nat) → List Char → List Char
  | _, [] => []
  | skip + 1, _ :: rest => replaceFrom pattern new skip rest
  | 0, c :: rest =>
      if pattern.isPrefixOf (c :: rest) then
        new ++ replaceFrom pattern new (pattern.length - 1) rest
      else c :: replaceFrom pattern new 0 rest

/-- Each occurrence of a non-empty `pattern` replaced by `new`; replaced text is
not searched again. -/
def replaceAll (pattern new s : List Char) : List Char := replaceFrom pattern new 0 s

theorem replaceFrom_drop (pattern new : List Char) (skip : Nat) (s : List Char) :
    replaceFrom pattern new skip s = replaceAll pattern new (s.drop skip) := by
  induction s generalizing skip with
  | nil => cases skip <;> rfl
  | cons c rest ih =>
      cases skip with
      | zero => rfl
      | succ skip => exact ih skip

/-- The text before and after the first `sep`. -/
def splitFirst (sep : α) : List α → Option (List α × List α)
  | [] => none
  | c :: rest =>
      if c = sep then some ([], rest)
      else (splitFirst sep rest).map fun p => (c :: p.1, p.2)

theorem splitFirst_eq_some {sep : α} {s before after : List α}
    (h : splitFirst sep s = some (before, after)) :
    s = before ++ sep :: after ∧ sep ∉ before := by
  induction s generalizing before with
  | nil => simp [splitFirst] at h
  | cons c rest ih =>
      simp only [splitFirst] at h
      split at h
      · next hc =>
          simp only [Option.some.injEq, Prod.mk.injEq] at h
          obtain ⟨rfl, rfl⟩ := h
          simp [hc]
      · next hc =>
          simp only [Option.map_eq_some_iff, Prod.mk.injEq, Prod.exists] at h
          obtain ⟨a, b, hr, rfl, rfl⟩ := h
          obtain ⟨rfl, hn⟩ := ih hr
          simp [hn, Ne.symm hc]

/-- The parts between the separators; one more than there are separators. -/
def splitOn (sep : α) : List α → List (List α)
  | [] => [[]]
  | c :: rest =>
      if c = sep then [] :: splitOn sep rest
      else
        match splitOn sep rest with
        | [] => [[c]]
        | part :: parts => (c :: part) :: parts

end LintReport.Text
