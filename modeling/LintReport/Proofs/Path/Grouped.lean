import LintReport.Proofs.Path.Map
import Mathlib.Data.List.Induction

set_option autoImplicit false

/- Values grouped by path. Under a path lies what was put under its spellings, in order, and what was
put under other paths makes no difference to it. A path is a key as soon as it was named, also when
nothing was put under it, and the key is spelled as it was named first. -/
namespace LintReport.PathMap

open LintReport.Path (Same)

variable {α : Type}

/-- Puts values behind those of a path. -/
def extend (m : PathMap (List α)) (e : Path × List α) : PathMap (List α) :=
  m.upsert e.1 fun old => old.getD [] ++ e.2

/-- Values put under their paths in turn. -/
def grouped (es : List (Path × List α)) : PathMap (List α) := es.foldl extend empty

/-- What was put under the spellings of a path. -/
def valuesAt (es : List (Path × List α)) (p : Path) : List α :=
  (es.filter fun e => decide (Same e.1 p)).flatMap Prod.snd

theorem valuesAt_append (es es' : List (Path × List α)) (p : Path) :
    valuesAt (es ++ es') p = valuesAt es p ++ valuesAt es' p := by
  rw [valuesAt, List.filter_append, List.flatMap_append, ← valuesAt, ← valuesAt]

theorem valuesAt_singleton (e : Path × List α) (p : Path) :
    valuesAt [e] p = if Same e.1 p then e.2 else [] := by
  unfold valuesAt
  by_cases same : Same e.1 p
  · rw [List.filter_cons_of_pos (by simpa using same), List.filter_nil, List.flatMap_singleton,
      if_pos same]
  · rw [List.filter_cons_of_neg (by simpa using same), List.filter_nil, List.flatMap_nil, if_neg same]

@[simp] theorem valuesAt_cons (e : Path × List α) (es : List (Path × List α)) (p : Path) :
    valuesAt (e :: es) p = (if Same e.1 p then e.2 else []) ++ valuesAt es p := by
  rw [← valuesAt_singleton, ← valuesAt_append, List.singleton_append]

theorem valuesAt_congr (es : List (Path × List α)) {p q : Path} (same : Same p q) :
    valuesAt es p = valuesAt es q := by
  simp only [valuesAt, Same, same]

theorem valuesAt_eq_nil {es : List (Path × List α)} {p : Path}
    (absent : ¬ ∃ e ∈ es, Same e.1 p) : valuesAt es p = [] := by
  have none : es.filter (fun e => decide (Same e.1 p)) = [] := by
    rw [List.filter_eq_nil_iff]
    intro e member same
    exact absent ⟨e, member, by simpa using same⟩
  rw [valuesAt, none, List.flatMap_nil]

theorem grouped_append_singleton (es : List (Path × List α)) (e : Path × List α) :
    grouped (es ++ [e]) = (grouped es).extend e := List.foldl_append

theorem ordered_grouped (es : List (Path × List α)) : (grouped es).Ordered := by
  induction es using List.reverseRecOn with
  | nil => exact ordered_empty
  | append_singleton es e ih =>
      rw [grouped_append_singleton]
      exact ordered_upsert _ ih e.1 _

/-- What is found under a path is all that was put under it. -/
theorem find?_grouped (es : List (Path × List α)) (p : Path) :
    (grouped es).find? p = if ∃ e ∈ es, Same e.1 p then some (valuesAt es p) else none := by
  induction es using List.reverseRecOn generalizing p with
  | nil => simp [grouped]
  | append_singleton es e ih =>
      have before : ((grouped es).find? e.1).getD [] = valuesAt es e.1 := by
        rw [ih e.1]
        split
        · rfl
        · next absent => exact (valuesAt_eq_nil absent).symm
      rw [grouped_append_singleton, extend, find?_upsert _ (ordered_grouped es), before, ih p,
        valuesAt_append, valuesAt_singleton]
      by_cases same : Same e.1 p
      · rw [if_pos same, if_pos same, if_pos ⟨e, by simp, same⟩, valuesAt_congr es same]
      · simp only [same, if_false, List.append_nil, List.mem_append, List.mem_singleton, or_and_right,
          exists_or, exists_eq_left, or_false]

theorem getD_find?_grouped (es : List (Path × List α)) (p : Path) :
    ((grouped es).find? p).getD [] = valuesAt es p := by
  rw [find?_grouped]
  split
  · rfl
  · next absent => exact (valuesAt_eq_nil absent).symm

/-- The keys are the paths that were named, each as it was spelled first. -/
theorem mem_keys_grouped (es : List (Path × List α)) (p : Path) :
    p ∈ (grouped es).keys ↔ (es.map Prod.fst).find? (fun named => decide (Same named p)) = some p := by
  induction es using List.reverseRecOn generalizing p with
  | nil => simp [grouped, keys, empty]
  | append_singleton es e ih =>
      rw [grouped_append_singleton, extend, mem_keys_upsert _ (ordered_grouped es), List.map_append,
        List.map_singleton, List.find?_append]
      cases found : (es.map Prod.fst).find? fun named => decide (Same named p) with
      | some first =>
          -- What spells the path first is a key already, so the last path adds none.
          have same : Same first p := by simpa using List.find?_some found
          have key : first ∈ (grouped es).keys := by
            rw [ih first, ← found]
            simp only [Same, same]
          rw [ih p, found, Option.some_or]
          refine or_iff_left ?_
          rintro ⟨rfl, fresh⟩
          exact fresh first key same
      | none =>
          have fresh : ∀ other ∈ (grouped es).keys, ¬ Same other p := by
            intro other key same
            have named := List.mem_of_find?_eq_some ((ih other).mp key)
            exact List.find?_eq_none.mp found other named (by simpa using same)
          have absent : p ∉ (grouped es).keys := fun key => fresh p key rfl
          rw [Option.none_or, or_iff_right absent]
          constructor
          · rintro ⟨rfl, _⟩
            simp
          · intro last
            obtain rfl : p = e.1 := by simpa using List.mem_of_find?_eq_some last
            exact ⟨rfl, fresh⟩

/-- As many values lie in the map as were put there. -/
theorem length_flatten_grouped (es : List (Path × List α)) :
    (grouped es).values.flatten.length = (es.flatMap Prod.snd).length := by
  induction es using List.reverseRecOn with
  | nil => rfl
  | append_singleton es e ih =>
      have grows : ∀ old : Option (List α),
          (old.getD [] ++ e.2).length = (old.getD []).length + e.2.length :=
        fun old => List.length_append
      rw [grouped_append_singleton, extend, length_flatten_upsert e.1 _ e.2.length grows, ih,
        List.flatMap_append, List.length_append, List.flatMap_singleton]

end LintReport.PathMap
