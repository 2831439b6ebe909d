import LintReport.Configuration
import Mathlib.Data.List.Basic
import Mathlib.Data.List.Induction

set_option autoImplicit false

/- Settings in tables that are laid over each other. As long as the tables spell a setting the
same way, the last one that has it decides. -/
namespace LintReport

namespace Toml.Table

/-- Whether a table has a key. -/
def HasKey (t : Table) (key : String) : Prop := ∃ e ∈ t, e.1 = key

theorem find?_eq_none_iff (t : Table) (key : String) : t.find? key = none ↔ ¬ t.HasKey key := by
  simp only [find?, HasKey, Option.map_eq_none_iff, List.find?_eq_none, decide_eq_true_eq,
    not_exists, not_and]

theorem hasKey_overlay (t later : Table) (key : String) :
    (t.overlay later).HasKey key ↔ t.HasKey key ∨ later.HasKey key := by
  unfold overlay HasKey
  constructor
  · rintro ⟨e, member, named⟩
    rcases List.mem_append.mp member with old | new
    · exact Or.inl ⟨e, List.mem_of_mem_filter old, named⟩
    · exact Or.inr ⟨e, new, named⟩
  · intro has
    by_cases new : later.HasKey key
    · obtain ⟨e, member, named⟩ := new
      exact ⟨e, List.mem_append_right _ member, named⟩
    · obtain ⟨e, member, named⟩ := has.resolve_right new
      refine ⟨e, List.mem_append_left _ (List.mem_filter.mpr ⟨member, ?_⟩), named⟩
      rw [Option.isNone_iff_eq_none, find?_eq_none_iff, named]
      exact new

/-- Tables laid over each other, the first one at the bottom. -/
def overlayAll (tables : List Table) : Table := tables.foldl overlay []

theorem overlayAll_append (tables : List Table) (t : Table) :
    overlayAll (tables ++ [t]) = (overlayAll tables).overlay t := by
  rw [overlayAll, List.foldl_append]
  rfl

theorem hasKey_overlayAll (tables : List Table) (key : String) :
    (overlayAll tables).HasKey key ↔ ∃ t ∈ tables, t.HasKey key := by
  induction tables using List.reverseRecOn with
  | nil => simp [overlayAll, HasKey]
  | append_singleton tables t ih =>
      rw [overlayAll_append, hasKey_overlay, ih]
      simp [or_and_right, exists_or]

end Toml.Table

namespace Setting

open Toml (Table)

variable {α : Type} (s : Setting α)

theorem mem_entriesIn (t : Table) (e : String × Toml.Value) :
    e ∈ s.entriesIn t ↔ e ∈ t ∧ e.1 ∈ s.spellings := by
  simp [entriesIn]

/-- The value that a table gives to a setting, under any spelling. -/
def value? (t : Table) : Option α :=
  match s.entriesIn t with
  | [e] => s.read e.2
  | _ => none

/-- The value of a setting in the last table that has it. -/
def latest (tables : List Table) : α := (tables.filterMap s.value?).getLast?.getD s.default

theorem latest_append_of_none (tables : List Table) {t : Table} (absent : s.value? t = none) :
    s.latest (tables ++ [t]) = s.latest tables := by
  rw [latest, List.filterMap_append, List.filterMap_cons_none absent, List.filterMap_nil,
    List.append_nil, latest]

theorem latest_append_of_some (tables : List Table) {t : Table} {a : α}
    (present : s.value? t = some a) : s.latest (tables ++ [t]) = a := by
  rw [latest, List.filterMap_append, List.filterMap_cons_some present, List.filterMap_nil,
    List.getLast?_concat, Option.getD_some]

/-- A setting is refused when it is there twice or when a value has the wrong type. -/
theorem get?_eq_none_iff (t : Table) : s.get? t = none ↔
    2 ≤ (s.entriesIn t).length ∨ ∃ e ∈ t, e.1 ∈ s.spellings ∧ s.read e.2 = none := by
  have entries : (∃ e ∈ t, e.1 ∈ s.spellings ∧ s.read e.2 = none) ↔
      ∃ e ∈ s.entriesIn t, s.read e.2 = none := by
    simp only [mem_entriesIn, and_assoc]
  rw [entries, get?]
  match s.entriesIn t with
  | [] => simp
  | [e] => simp
  | _ :: _ :: _ => simp

/-- Two spellings of a setting in one table are one too many. -/
theorem get?_of_two {t : Table} {a b : String} (spelled : a ∈ s.spellings)
    (spelled' : b ∈ s.spellings) (other : a ≠ b) (has : t.HasKey a) (has' : t.HasKey b) :
    s.get? t = none := by
  obtain ⟨e, member, rfl⟩ := has
  obtain ⟨e', member', rfl⟩ := has'
  have here := (s.mem_entriesIn t e).mpr ⟨member, spelled⟩
  have here' := (s.mem_entriesIn t e').mpr ⟨member', spelled'⟩
  rw [get?]
  match read : s.entriesIn t with
  | [] => simp [read] at here
  | [d] =>
      rw [read, List.mem_singleton] at here here'
      exact absurd (congrArg Prod.fst (here.trans here'.symm)) other
  | _ :: _ :: _ => rfl

theorem entriesIn_overlay (t later : Table) : s.entriesIn (t.overlay later) =
    (s.entriesIn t).filter (fun e => (later.find? e.1).isNone) ++ s.entriesIn later := by
  rw [Table.overlay, entriesIn, List.filter_append, List.filter_filter, entriesIn, entriesIn,
    List.filter_filter]
  congr 1
  exact List.filter_congr fun e _ => Bool.and_comm _ _

/-- A table without the setting leaves it as it is. -/
theorem entriesIn_overlay_of_nil {t later : Table} (none : s.entriesIn later = []) :
    s.entriesIn (t.overlay later) = s.entriesIn t := by
  rw [entriesIn_overlay, none, List.append_nil, List.filter_eq_self]
  intro e member
  rw [Option.isNone_iff_eq_none, Table.find?_eq_none_iff]
  rintro ⟨e', member', named⟩
  have there := (s.mem_entriesIn later e').mpr
    ⟨member', named ▸ ((s.mem_entriesIn t e).mp member).2⟩
  simp [none] at there

/-- A table that has the setting replaces it, if it is spelled as before. -/
theorem entriesIn_overlay_of_cons {t later : Table} {e : String × Toml.Value}
    (one : s.entriesIn later = [e]) (spelled : ∀ d ∈ s.entriesIn t, d.1 = e.1) :
    s.entriesIn (t.overlay later) = [e] := by
  rw [entriesIn_overlay, one, List.filter_eq_nil_iff.mpr, List.nil_append]
  intro d member
  rw [Option.isNone_iff_eq_none, Table.find?_eq_none_iff, not_not, spelled d member]
  have there : e ∈ s.entriesIn later := by simp [one]
  exact ⟨e, ((s.mem_entriesIn later e).mp there).1, rfl⟩

/-- Whether the setting has one spelling only in all of some tables. -/
def IsUniform (tables : List Table) : Prop :=
  ∀ a ∈ s.spellings, ∀ b ∈ s.spellings, (∃ t ∈ tables, t.HasKey a) → (∃ t ∈ tables, t.HasKey b) →
    a = b

variable {s}

theorem IsUniform.of_append {front back : List Table} (uniform : s.IsUniform (front ++ back)) :
    s.IsUniform front := fun a spelled b spelled' has has' =>
  uniform a spelled b spelled' (has.imp fun _ => And.imp_left (List.mem_append_left _))
    (has'.imp fun _ => And.imp_left (List.mem_append_left _))

/-- What the tables below say of a setting, they say under the name that the one above uses. -/
theorem IsUniform.name_eq {tables : List Table} {t : Table} {e d : String × Toml.Value}
    (uniform : s.IsUniform (tables ++ [t])) (above : e ∈ s.entriesIn t)
    (below : d ∈ s.entriesIn (Table.overlayAll tables)) : d.1 = e.1 := by
  obtain ⟨above, spelled⟩ := (s.mem_entriesIn t e).mp above
  obtain ⟨below, spelled'⟩ := (s.mem_entriesIn _ d).mp below
  obtain ⟨t', member, has⟩ := (Table.hasKey_overlayAll tables d.1).mp ⟨d, below, rfl⟩
  exact uniform d.1 spelled' e.1 spelled ⟨t', List.mem_append_left _ member, has⟩
    ⟨t, List.mem_append_right _ List.mem_cons_self, e, above, rfl⟩

theorem get?_overlayAll {tables : List Table} (valid : ∀ t ∈ tables, s.get? t ≠ none)
    (uniform : s.IsUniform tables) :
    s.get? (Table.overlayAll tables) = some (s.latest tables) := by
  induction tables using List.reverseRecOn with
  | nil => rfl
  | append_singleton tables t ih =>
      have before := ih (fun t' member => valid t' (List.mem_append_left _ member))
        uniform.of_append
      have given := valid t (List.mem_append_right _ List.mem_cons_self)
      rw [Table.overlayAll_append]
      match read : s.entriesIn t with
      | [] =>
          have absent : s.value? t = none := by rw [value?, read]
          rw [get?, s.entriesIn_overlay_of_nil read, ← get?, before,
            s.latest_append_of_none tables absent]
      | [e] =>
          have there : e ∈ s.entriesIn t := by simp [read]
          have spelled : ∀ d ∈ s.entriesIn (Table.overlayAll tables), d.1 = e.1 :=
            fun d below => uniform.name_eq there below
          rw [get?, read] at given
          obtain ⟨v, value⟩ := Option.ne_none_iff_exists'.mp given
          have present : s.value? t = some v := by
            rw [value?, read]
            exact value
          rw [get?, s.entriesIn_overlay_of_cons read spelled,
            s.latest_append_of_some tables present]
          exact value
      | _ :: _ :: _ =>
          refine absurd ?_ given
          rw [get?, read]

end Setting

end LintReport
