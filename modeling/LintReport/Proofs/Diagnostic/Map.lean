import LintReport.Diagnostic.Map
import LintReport.Proofs.Path.Map
import LintReport.Proofs.Path.Normal

set_option autoImplicit false

/- Diagnostics that were pushed are all there: each under the path that it was pushed
under, behind those that were there before it. -/
namespace LintReport

namespace DiagnosticMap

open LintReport.Path (Same)

/-- What every step keeps: the paths are in strict order, and the number kept beside the
diagnostics is theirs. -/
structure WellFormed (m : DiagnosticMap) : Prop where
  ordered : m.files.Ordered
  counted : m.total = m.diagnostics.length

@[simp] theorem wellFormed_empty : WellFormed empty := ⟨PathMap.ordered_empty, rfl⟩

theorem wellFormed_ensureEntry {m : DiagnosticMap} (valid : m.WellFormed) (p : Path) :
    (m.ensureEntry p).WellFormed := by
  refine ⟨PathMap.ordered_upsert m.files valid.ordered p _, ?_⟩
  rw [total_ensureEntry, valid.counted]
  exact (PathMap.length_flatten_upsert p _ 0 (fun old => rfl) m.files).symm

theorem wellFormed_push {m : DiagnosticMap} (valid : m.WellFormed) (p : Path) (d : Diagnostic) :
    (m.push p d).WellFormed := by
  refine ⟨PathMap.ordered_upsert m.files valid.ordered p _, ?_⟩
  rw [total_push, valid.counted]
  refine (PathMap.length_flatten_upsert p _ 1 (fun old => ?_) m.files).symm
  rw [List.length_append, List.length_singleton]

theorem wellFormed_ofPrimary (primary : Path) : (ofPrimary primary).WellFormed :=
  wellFormed_ensureEntry wellFormed_empty primary

theorem get?_push {m : DiagnosticMap} (valid : m.WellFormed) (p q : Path) (d : Diagnostic) :
    (m.push p d).get? q = if Same p q then some ((m.get? p).getD [] ++ [d]) else m.get? q :=
  PathMap.find?_upsert m.files valid.ordered p q _

theorem get?_congr (m : DiagnosticMap) {p q : Path} (same : Same p q) : m.get? p = m.get? q :=
  PathMap.find?_eq_of_same m.files same

/-- Pushes diagnostics under their paths, one behind the other. -/
def pushAll (m : DiagnosticMap) (es : List (Path × Diagnostic)) : DiagnosticMap :=
  es.foldl (fun m e => m.push e.1 e.2) m

@[simp] theorem pushAll_cons (m : DiagnosticMap) (e : Path × Diagnostic)
    (es : List (Path × Diagnostic)) :
    m.pushAll (e :: es) = (m.push e.1 e.2).pushAll es := rfl

theorem pushAll_append (m : DiagnosticMap) (es es' : List (Path × Diagnostic)) :
    m.pushAll (es ++ es') = (m.pushAll es).pushAll es' := List.foldl_append

theorem wellFormed_pushAll {m : DiagnosticMap} (valid : m.WellFormed)
    (es : List (Path × Diagnostic)) : (m.pushAll es).WellFormed := by
  induction es generalizing m with
  | nil => exact valid
  | cons e es ih => exact ih (wellFormed_push valid e.1 e.2)

/-- The diagnostics of a file after some pushes: those from before, and behind them those
pushed under the file. -/
theorem getD_get?_pushAll {m : DiagnosticMap} (valid : m.WellFormed)
    (es : List (Path × Diagnostic)) (q : Path) :
    ((m.pushAll es).get? q).getD [] =
      (m.get? q).getD [] ++ (es.filter fun e => decide (Same e.1 q)).map Prod.snd := by
  induction es generalizing m with
  | nil => rw [List.filter_nil, List.map_nil, List.append_nil]; rfl
  | cons e es ih =>
      rw [pushAll_cons, ih (wellFormed_push valid e.1 e.2), get?_push valid]
      by_cases same : Same e.1 q
      · rw [if_pos same, List.filter_cons_of_pos (by simpa using same), List.map_cons,
          get?_congr m same, Option.getD_some, List.append_assoc, List.singleton_append]
      · rw [if_neg same, List.filter_cons_of_neg (by simpa using same)]

/-- A file has no list as long as nothing was pushed under it. -/
theorem get?_pushAll_eq_none {m : DiagnosticMap} (valid : m.WellFormed)
    (es : List (Path × Diagnostic)) (q : Path) :
    (m.pushAll es).get? q = none ↔ m.get? q = none ∧ ∀ e ∈ es, ¬ Same e.1 q := by
  induction es generalizing m with
  | nil => simp [pushAll]
  | cons e es ih =>
      rw [pushAll_cons, ih (wellFormed_push valid e.1 e.2), get?_push valid]
      by_cases same : Same e.1 q
      · rw [if_pos same]
        exact iff_of_false (by simp) fun absent => absent.2 e List.mem_cons_self same
      · rw [if_neg same, List.forall_mem_cons, and_iff_right same]

/-- With more diagnostics pushed no list gets shorter. -/
theorem get?_pushAll_of_sublist {m : DiagnosticMap} (valid : m.WellFormed)
    {es es' : List (Path × Diagnostic)} (kept : es.Sublist es') {q : Path} {ds : List Diagnostic}
    (found : (m.pushAll es).get? q = some ds) :
    ∃ ds', (m.pushAll es').get? q = some ds' ∧ ds.Sublist ds' := by
  cases found' : (m.pushAll es').get? q with
  | none =>
      obtain ⟨absent, none⟩ := (get?_pushAll_eq_none valid es' q).mp found'
      have absent' := (get?_pushAll_eq_none valid es q).mpr
        ⟨absent, fun e member => none e (kept.subset member)⟩
      rw [absent'] at found
      exact absurd found (by simp)
  | some ds' =>
      have lists := getD_get?_pushAll valid es q
      have lists' := getD_get?_pushAll valid es' q
      rw [found, Option.getD_some] at lists
      rw [found', Option.getD_some] at lists'
      refine ⟨ds', rfl, ?_⟩
      rw [lists, lists']
      exact (List.Sublist.refl _).append ((kept.filter _).map _)

theorem get?_of_mem_paths {m : DiagnosticMap} {p : Path} (member : p ∈ m.paths) :
    m.get? p = some ((m.get? p).getD []) := by
  obtain ⟨ds, found⟩ := PathMap.exists_find?_of_mem_keys member
  rw [get?, found, Option.getD_some]

theorem paths_ofPrimary (primary : Path) : (ofPrimary primary).paths = [primary] := rfl

theorem getD_get?_ofPrimary (primary q : Path) : ((ofPrimary primary).get? q).getD [] = [] := by
  have found := PathMap.find?_upsert PathMap.empty PathMap.ordered_empty primary q
    fun (old : Option (List Diagnostic)) => old.getD []
  change (PathMap.find? _ q).getD [] = []
  rw [ofPrimary, ensureEntry, empty, found]
  split <;> rfl

/-- One push makes its path a key. The spelling is that of the path if all are normal. -/
theorem mem_paths_push {m : DiagnosticMap} (valid : m.WellFormed)
    (normal : ∀ q ∈ m.paths, q.IsNormal) {p : Path} (normal' : p.IsNormal) (d : Diagnostic)
    (q : Path) : q ∈ (m.push p d).paths ↔ q ∈ m.paths ∨ p = q := by
  have keys := PathMap.mem_keys_upsert m.files valid.ordered p q
    fun (old : Option (List Diagnostic)) => old.getD [] ++ [d]
  change q ∈ (m.files.upsert p _).keys ↔ _
  rw [keys]
  constructor
  · intro member
    rcases member with old | new
    · exact Or.inl old
    · exact Or.inr new.1.symm
  · intro member
    rcases member with old | rfl
    · exact Or.inl old
    · by_cases known : ∃ other ∈ m.paths, Same other p
      · obtain ⟨other, member, same⟩ := known
        exact Or.inl (Path.IsNormal.eq_of_same (normal other member) normal' same ▸ member)
      · exact Or.inr ⟨rfl, fun other member same => known ⟨other, member, same⟩⟩

theorem mem_paths_pushAll {m : DiagnosticMap} (valid : m.WellFormed)
    (normal : ∀ q ∈ m.paths, q.IsNormal) (es : List (Path × Diagnostic))
    (normal' : ∀ e ∈ es, e.1.IsNormal) (q : Path) :
    q ∈ (m.pushAll es).paths ↔ q ∈ m.paths ∨ ∃ e ∈ es, e.1 = q := by
  induction es generalizing m with
  | nil => simp [pushAll]
  | cons e es ih =>
      have here : e.1.IsNormal := normal' e List.mem_cons_self
      have keys := mem_paths_push valid normal here e.2
      have next : ∀ p ∈ (m.push e.1 e.2).paths, p.IsNormal := by
        intro p member
        rcases (keys p).mp member with old | rfl
        · exact normal p old
        · exact here
      rw [pushAll_cons, ih (wellFormed_push valid e.1 e.2) next
        fun e' member => normal' e' (List.mem_cons_of_mem e member), keys, or_assoc]
      simp only [List.mem_cons, exists_eq_or_imp]

section Located

/-- A diagnostic for each item that has a place, under that place. -/
def located {α : Type} (place? : α → Option Path) (diagnostic : Path → α → Diagnostic)
    (xs : List α) : List (Path × Diagnostic) :=
  xs.filterMap fun x => (place? x).map fun p => (p, diagnostic p x)

variable {α : Type} {place? : α → Option Path} {diagnostic : Path → α → Diagnostic}

theorem located_cons_of_none {x : α} (xs : List α) (dropped : place? x = none) :
    located place? diagnostic (x :: xs) = located place? diagnostic xs := by
  rw [located, List.filterMap_cons_none (by rw [dropped, Option.map_none]), located]

theorem located_cons_of_some {x : α} (xs : List α) {p : Path} (kept : place? x = some p) :
    located place? diagnostic (x :: xs) =
      (p, diagnostic p x) :: located place? diagnostic xs := by
  rw [located, List.filterMap_cons_some (by rw [kept, Option.map_some]), located]

theorem exists_mem_located (xs : List α) (q : Path) :
    (∃ e ∈ located place? diagnostic xs, e.1 = q) ↔ ∃ x ∈ xs, place? x = some q := by
  constructor
  · intro pushed
    obtain ⟨_, member, rfl⟩ := pushed
    obtain ⟨x, member', equal⟩ := List.mem_filterMap.mp member
    obtain ⟨p, place, rfl⟩ := Option.map_eq_some_iff.mp equal
    exact ⟨x, member', place⟩
  · intro placed
    obtain ⟨x, member, place⟩ := placed
    refine ⟨(q, diagnostic q x), List.mem_filterMap.mpr ⟨x, member, ?_⟩, rfl⟩
    rw [place, Option.map_some]

/-- Under one path lie the diagnostics of the items that have it as their place. -/
theorem filter_located (xs : List α) (q : Path) :
    ((located place? diagnostic xs).filter fun e => decide (e.1 = q)).map Prod.snd =
      (xs.filter fun x => decide (place? x = some q)).map (diagnostic q) := by
  induction xs with
  | nil => rfl
  | cons x xs ih =>
      cases place : place? x with
      | none => rw [located_cons_of_none xs place, ih, List.filter_cons_of_neg (by simp [place])]
      | some p =>
          rw [located_cons_of_some xs place]
          by_cases here : p = q
          · rw [List.filter_cons_of_pos (by simpa using here),
              List.filter_cons_of_pos (by simpa [place] using here), List.map_cons, List.map_cons,
              ih, here]
          · rw [List.filter_cons_of_neg (by simpa using here),
              List.filter_cons_of_neg (by simpa [place] using here), ih]

/-- A pass that pushes the diagnostic of each item under its place. -/
theorem foldl_eq_pushAll {step : DiagnosticMap → α → DiagnosticMap}
    (rejected : ∀ m x, place? x = none → step m x = m)
    (kept : ∀ m x p, place? x = some p → step m x = m.push p (diagnostic p x))
    (xs : List α) (m : DiagnosticMap) :
    xs.foldl step m = m.pushAll (located place? diagnostic xs) := by
  induction xs generalizing m with
  | nil => rfl
  | cons x xs ih =>
      cases place : place? x with
      | none => rw [List.foldl_cons, ih, rejected m x place, located_cons_of_none xs place]
      | some p =>
          rw [List.foldl_cons, ih, kept m x p place, located_cons_of_some xs place, pushAll_cons]

end Located

end DiagnosticMap

end LintReport
