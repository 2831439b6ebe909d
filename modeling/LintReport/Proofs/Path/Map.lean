import LintReport.Path.Map
import LintReport.Proofs.Path.Order

set_option autoImplicit false

/- Maps with paths for keys, seen through lookup: a change at a path is seen by its
spellings and by no other path. The keys stay in strict order. -/
namespace LintReport.PathMap

open LintReport.Path (Same)

variable {α : Type}

/-- Keys in strict path order, so no two of them spell one path. -/
def Ordered (m : PathMap α) : Prop :=
  m.entries.Pairwise fun e e' => e.1.compare e'.1 = .lt

theorem Ordered.keys {m : PathMap α} (ordered : m.Ordered) :
    m.keys.Pairwise fun p q => p.compare q = .lt := List.pairwise_map.mpr ordered

@[simp] theorem ordered_empty : Ordered (empty : PathMap α) := List.Pairwise.nil

theorem find?_cons (r q : Path) (a : α) (rest : List (Path × α)) :
    find? ⟨(r, a) :: rest⟩ q = if Same r q then some a else find? ⟨rest⟩ q := by
  unfold find?
  by_cases same : Same r q
  · rw [List.find?_cons_of_pos (by simpa using same), if_pos same, Option.map_some]
  · rw [List.find?_cons_of_neg (by simpa using same), if_neg same]

theorem find?_eq_none {m : PathMap α} {q : Path} (absent : ∀ key ∈ m.keys, ¬ Same key q) :
    m.find? q = none := by
  unfold find?
  rw [Option.map_eq_none_iff, List.find?_eq_none]
  intro e member
  simpa using absent e.1 (List.mem_map_of_mem member)

theorem exists_find?_of_mem_keys {m : PathMap α} {p : Path} (member : p ∈ m.keys) :
    ∃ a, m.find? p = some a := by
  obtain ⟨e, inEntries, rfl⟩ := List.mem_map.mp member
  have present : (m.entries.find? fun e' => decide (Same e'.1 e.1)).isSome = true := by
    rw [List.find?_isSome]
    exact ⟨e, inEntries, by simp⟩
  obtain ⟨found, equal⟩ := Option.isSome_iff_exists.mp present
  exact ⟨found.2, by rw [find?, equal, Option.map_some]⟩

/-- Below a key a map in order holds what is found there. -/
theorem mem_entries_iff {m : PathMap α} (ordered : m.Ordered) (p : Path) (a : α) :
    (p, a) ∈ m.entries ↔ p ∈ m.keys ∧ m.find? p = some a := by
  have found : ∀ b, (p, b) ∈ m.entries → m.find? p = some b := by
    intro b member
    obtain ⟨entries⟩ := m
    induction entries with
    | nil => simp at member
    | cons e rest ih =>
        obtain ⟨r, c⟩ := e
        rw [find?_cons]
        rcases List.mem_cons.mp member with equal | later
        · obtain ⟨rfl, rfl⟩ := Prod.mk.inj equal
          exact if_pos rfl
        · have before := (List.pairwise_cons.mp ordered).1 (p, b) later
          rw [if_neg (Path.not_same_of_lt before)]
          exact ih ordered.of_cons later
  constructor
  · intro member
    exact ⟨List.mem_map_of_mem member, found a member⟩
  · rintro ⟨key, equal⟩
    obtain ⟨e, member, rfl⟩ := List.mem_map.mp key
    have here : some e.2 = some a := (found e.2 member).symm.trans equal
    rw [← Option.some.inj here]
    exact member

/-- A path that comes before the first key is no key. -/
theorem not_same_of_lt {p r key : Path} {a : α} {rest : List (Path × α)}
    (ordered : Ordered ⟨(r, a) :: rest⟩) (before : p.compare r = .lt)
    (member : key ∈ keys ⟨(r, a) :: rest⟩) : ¬ Same key p := by
  intro same
  refine Path.not_same_of_lt ?_ same.symm
  rcases List.mem_cons.mp member with rfl | later
  · exact before
  · obtain ⟨e, inRest, rfl⟩ := List.mem_map.mp later
    exact Path.compare_trans before ((List.pairwise_cons.mp ordered).1 e inRest)

/-- What is found after a change. -/
theorem find?_upsert (m : PathMap α) (ordered : Ordered m) (p q : Path) (f : Option α → α) :
    (m.upsert p f).find? q = if Same p q then some (f (m.find? p)) else m.find? q := by
  obtain ⟨entries⟩ := m
  rw [upsert]
  induction entries with
  | nil => rw [upsertEntries, find?_cons]; rfl
  | cons e rest ih =>
      obtain ⟨r, a⟩ := e
      rw [upsertEntries]
      split
      · next before =>
          rw [find?_cons, find?_eq_none fun key => not_same_of_lt ordered before]
      · next equal =>
          have same := (Path.compare_eq_iff_same p r).mp equal
          have both : Same r q ↔ Same p q := by rw [Same, Same, same]
          rw [find?_cons, find?_cons, find?_cons, if_pos same.symm]
          simp only [both]
          split <;> rfl
      · next after =>
          have different : ¬ Same r p := Path.not_same_of_lt (Path.compare_swap after)
          rw [find?_cons, find?_cons, find?_cons, if_neg different, ih ordered.of_cons]
          by_cases here : Same r q
          · have elsewhere : ¬ Same p q := fun same => different (here.trans same.symm)
            rw [if_pos here, if_neg elsewhere, if_pos here]
          · rw [if_neg here, if_neg here]

@[simp] theorem keys_cons (r : Path) (a : α) (rest : List (Path × α)) :
    keys ⟨(r, a) :: rest⟩ = r :: keys ⟨rest⟩ := rfl

/-- The keys after a change: those from before, and the path if none of them spells it. -/
theorem mem_keys_upsert (m : PathMap α) (ordered : Ordered m) (p key : Path)
    (f : Option α → α) :
    key ∈ (m.upsert p f).keys ↔
      key ∈ m.keys ∨ key = p ∧ ∀ other ∈ m.keys, ¬ Same other p := by
  obtain ⟨entries⟩ := m
  rw [upsert]
  induction entries with
  | nil => simp [upsertEntries, keys]
  | cons e rest ih =>
      obtain ⟨r, a⟩ := e
      rw [upsertEntries]
      split
      · next before =>
          have fresh : ∀ other ∈ keys ⟨(r, a) :: rest⟩, ¬ Same other p :=
            fun other => not_same_of_lt ordered before
          rw [keys_cons, List.mem_cons]
          constructor
          · intro member
            rcases member with new | old
            · exact Or.inr ⟨new, fresh⟩
            · exact Or.inl old
          · intro member
            rcases member with old | new
            · exact Or.inr old
            · exact Or.inl new.1
      · next equal =>
          have same := (Path.compare_eq_iff_same p r).mp equal
          constructor
          · exact Or.inl
          · intro member
            rcases member with old | new
            · exact old
            · exact absurd same.symm (new.2 r List.mem_cons_self)
      · next after =>
          have different : ¬ Same r p := Path.not_same_of_lt (Path.compare_swap after)
          rw [keys_cons, keys_cons, List.mem_cons, ih ordered.of_cons, List.mem_cons]
          simp only [List.forall_mem_cons, different, not_false_eq_true, true_and, or_assoc]

theorem ordered_upsert (m : PathMap α) (ordered : Ordered m) (p : Path) (f : Option α → α) :
    Ordered (m.upsert p f) := by
  obtain ⟨entries⟩ := m
  rw [upsert]
  induction entries with
  | nil => exact List.pairwise_singleton _ _
  | cons e rest ih =>
      obtain ⟨r, a⟩ := e
      obtain ⟨first, later⟩ := List.pairwise_cons.mp ordered
      rw [upsertEntries]
      split
      · next before =>
          refine List.pairwise_cons.mpr ⟨?_, ordered⟩
          intro e member
          rcases List.mem_cons.mp member with rfl | inRest
          · exact before
          · exact Path.compare_trans before (first e inRest)
      · exact List.pairwise_cons.mpr ⟨first, later⟩
      · next after =>
          refine List.pairwise_cons.mpr ⟨?_, ih later⟩
          intro e member
          have key := (mem_keys_upsert ⟨rest⟩ later p e.1 f).mp (List.mem_map_of_mem member)
          rcases key with old | ⟨equal, _⟩
          · obtain ⟨e', inRest, equal⟩ := List.mem_map.mp old
            rw [← equal]
            exact first e' inRest
          · rw [equal]
            exact Path.compare_swap after

/-- A change that keeps the value at a key changes nothing. -/
theorem upsert_of_find? {m : PathMap α} (ordered : m.Ordered) {p : Path} {a : α}
    (found : m.find? p = some a) {f : Option α → α} (keeps : f (some a) = a) :
    m.upsert p f = m := by
  obtain ⟨entries⟩ := m
  rw [upsert]
  congr 1
  induction entries with
  | nil => cases found
  | cons e rest ih =>
      obtain ⟨r, b⟩ := e
      rw [find?_cons] at found
      rw [upsertEntries]
      split
      · next before =>
          have absent : ∀ key ∈ keys ⟨(r, b) :: rest⟩, ¬ Same key p :=
            fun key => not_same_of_lt ordered before
          rw [← find?_cons, find?_eq_none absent] at found
          cases found
      · next equal =>
          rw [if_pos ((Path.compare_eq_iff_same p r).mp equal).symm] at found
          rw [Option.some.inj found, keeps]
      · next after =>
          rw [if_neg (Path.not_same_of_lt (Path.compare_swap after))] at found
          rw [ih ordered.of_cons found]

/-- A change at a path that is no key puts an entry between those that are there. -/
theorem upsert_of_find?_none {m : PathMap α} {p : Path} (absent : m.find? p = none)
    (f : Option α → α) : ∃ before after,
      m.entries = before ++ after ∧ (m.upsert p f).entries = before ++ (p, f none) :: after := by
  obtain ⟨entries⟩ := m
  rw [upsert]
  induction entries with
  | nil => exact ⟨[], [], rfl, rfl⟩
  | cons e rest ih =>
      obtain ⟨r, b⟩ := e
      rw [find?_cons] at absent
      rw [upsertEntries]
      split
      · exact ⟨[], (r, b) :: rest, rfl, rfl⟩
      · next equal =>
          rw [if_pos ((Path.compare_eq_iff_same p r).mp equal).symm] at absent
          cases absent
      · next after =>
          rw [if_neg (Path.not_same_of_lt (Path.compare_swap after))] at absent
          obtain ⟨before, behind, split, inserted⟩ := ih absent
          refine ⟨(r, b) :: before, behind, ?_, ?_⟩
          · exact congrArg ((r, b) :: ·) split
          · exact congrArg ((r, b) :: ·) inserted

/-- A change of one value changes the number of what lies in all of them as it changes the
number of what lies in that one. -/
theorem length_flatten_upsert (p : Path) (f : Option (List α) → List α) (count : Nat)
    (grows : ∀ old, (f old).length = (old.getD []).length + count) (m : PathMap (List α)) :
    (m.upsert p f).values.flatten.length = m.values.flatten.length + count := by
  obtain ⟨entries⟩ := m
  rw [upsert]
  have added := grows none
  rw [Option.getD_none, List.length_nil, Nat.zero_add] at added
  induction entries with
  | nil => simp [upsertEntries, values, added]
  | cons e rest ih =>
      obtain ⟨r, a⟩ := e
      rw [upsertEntries]
      split
      · simp only [values, List.map_cons, List.flatten_cons, List.length_append, added]
        omega
      · have changed := grows (some a)
        rw [Option.getD_some] at changed
        simp only [values, List.map_cons, List.flatten_cons, List.length_append, changed]
        omega
      · simp only [values, List.map_cons, List.flatten_cons, List.length_append] at ih ⊢
        omega

end LintReport.PathMap
