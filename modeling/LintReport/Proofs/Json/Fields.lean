import LintReport.Json.Fields

set_option autoImplicit false

/- Records that were written member by member, each name once, give each field that is asked
for. -/
namespace LintReport.Json

theorem memberOf?_map {members : List (String × Json)}
    (distinct : (members.map Prod.fst).Nodup) (name : String) :
    memberOf? name (members.map fun m => (some m.1, m.2)) = some (members.lookup name) := by
  induction members with
  | nil => rfl
  | cons m members ih =>
      obtain ⟨key, value⟩ := m
      obtain ⟨fresh, distinct'⟩ := List.nodup_cons.mp distinct
      have later := ih distinct'
      unfold memberOf? at later ⊢
      rw [List.map_cons, List.lookup_cons]
      by_cases here : key = name
      · have none : (members.map fun m => (some m.1, m.2)).filter
            (fun m => decide (m.1 = some name)) = [] := by
          rw [List.filter_eq_nil_iff]
          intro e member equal
          obtain ⟨m, inMembers, rfl⟩ := List.mem_map.mp member
          apply fresh
          have same : m.1 = key := by simpa [here] using equal
          exact List.mem_map.mpr ⟨m, inMembers, same⟩
        rw [List.filter_cons_of_pos (by simpa using here), none]
        simp [here]
      · have other : (name == key) = false := beq_eq_false_iff_ne.mpr (Ne.symm here)
        rw [List.filter_cons_of_neg (by simpa using here), later, other]

/-- The fields of a record are looked up by their names. -/
theorem fields?_record {members : List (String × Json)}
    (distinct : (members.map Prod.fst).Nodup) (names : List String) :
    (record members).fields? names = some ⟨false, names.map fun n => members.lookup n⟩ := by
  have named : (members.map fun m => (some m.1, m.2)).any (fun m => m.1.isNone) = false := by
    simp
  have found : names.mapM (fun n => memberOf? n (members.map fun m => (some m.1, m.2))) =
      some (names.map fun n => members.lookup n) := by
    simp only [memberOf?_map distinct]
    exact List.mapM_pure
  rw [record, fields?, named, found]
  rfl

end LintReport.Json
