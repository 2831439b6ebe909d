import LintReport.Proofs.Json.Fields
import LintReport.Proofs.Json.Parse
import LintReport.Proofs.Path.Shown
import LintReport.Replacement.Token

set_option autoImplicit false

/- A token holds its replacements: they are all read back from it as they were. Only a path that is
not UTF-8 cannot be written, and then the token holds none of them. -/
namespace LintReport

open Json (Plain plain_record)

namespace Json

theorem asNatural?_natural {limit n : Nat} (small : n < limit) :
    (natural n).asNatural? limit = some n := by
  rw [asNatural?, if_pos small]

end Json

namespace Position

theorem plain_toJson (p : Position) : Plain p.toJson := by
  refine plain_record ?_
  simp only [List.forall_mem_cons, List.not_mem_nil, false_implies, implies_true, and_true]
  exact ⟨.natural _, .natural _⟩

@[simp] theorem ofJson?_toJson (p : Position) : ofJson? p.toJson = some p := by
  have fields : p.toJson.fields? ["line", "character"] =
      some ⟨false, [some (.natural p.line.toNat), some (.natural p.character.toNat)]⟩ := by
    rw [toJson, Json.fields?_record (by simp)]
    rfl
  simp [ofJson?, fields, Json.Fields.get, Json.asNatural?_natural (UInt32.toNat_lt_size _)]

end Position

namespace Range

theorem plain_toJson (r : Range) : Plain r.toJson := by
  refine plain_record ?_
  simp only [List.forall_mem_cons, List.not_mem_nil, false_implies, implies_true, and_true]
  exact ⟨r.start.plain_toJson, r.stop.plain_toJson⟩

@[simp] theorem ofJson?_toJson (r : Range) : ofJson? r.toJson = some r := by
  have fields : r.toJson.fields? ["start", "end"] =
      some ⟨false, [some r.start.toJson, some r.stop.toJson]⟩ := by
    rw [toJson, Json.fields?_record (by simp)]
    rfl
  simp [ofJson?, fields, Json.Fields.get]

end Range

namespace Replacement

theorem toJson?_eq_none {r : Replacement} : toJson? r = none ↔ ¬ r.file.IsText := by
  rw [toJson?, Option.map_eq_none_iff, Path.isText_iff, not_not]

theorem toJson?_eq_some {r : Replacement} {j : Json} :
    toJson? r = some j ↔ ∃ path : String, r.file = ⟨path⟩ ∧ record path r = j := by
  rw [toJson?, Option.map_eq_some_iff]
  exact exists_congr fun path => and_congr_left fun _ => Path.text?_eq_some_iff

theorem plain_record (path : String) (r : Replacement) : Plain (record path r) := by
  refine Json.plain_record ?_
  obtain ⟨file, offset, length, text, range⟩ := r
  cases range with
  | none =>
      simp only [Option.map_none, Option.toList_none, List.append_nil, List.forall_mem_cons,
        List.not_mem_nil, false_implies, implies_true, and_true]
      exact ⟨.text _, .natural _, .natural _, .text _⟩
  | some range =>
      simp only [Option.map_some, Option.toList_some, List.cons_append, List.nil_append,
        List.forall_mem_cons, List.not_mem_nil, false_implies, implies_true, and_true]
      exact ⟨.text _, .natural _, .natural _, .text _, range.plain_toJson⟩

theorem rangeOf?_toJson (range : Option Range) :
    rangeOf? (range.map Range.toJson) = some range := by
  cases range with
  | none => rfl
  | some range =>
      change (Range.ofJson? range.toJson).map some = _
      rw [Range.ofJson?_toJson, Option.map_some]

theorem ofJson?_record (path : String) (r : Replacement) :
    ofJson? (record path r) = some { r with file := ⟨path⟩ } := by
  have fields :
      (record path r).fields? ["FilePath", "Offset", "Length", "ReplacementText", "Range"] =
        some ⟨false, [some (.text path), some (.natural r.offset.toNat),
          some (.natural r.length.toNat), some (.text r.text), r.range.map Range.toJson]⟩ := by
    obtain ⟨file, offset, length, text, range⟩ := r
    cases range with
    | none =>
        rw [record, Json.fields?_record (by simp)]
        rfl
    | some range =>
        rw [record, Json.fields?_record (by simp)]
        rfl
  have offset := Json.asNatural?_natural r.offset.toNat_lt_size
  have length := Json.asNatural?_natural r.length.toNat_lt_size
  rw [ofJson?, fields]
  simp only [Json.Fields.get, Json.asText?, Option.bind_eq_bind, Option.bind_some,
    List.getElem?_cons_zero, List.getElem?_cons_succ, Option.join_some, offset, length,
    rangeOf?_toJson, Nat.toUInt64_eq, UInt64.ofNat_toNat]

/-- Replacements whose paths are UTF-8 have records, from which they are read back. -/
theorem exists_records {rs : List Replacement} (texts : ∀ r ∈ rs, r.file.IsText) :
    ∃ items, rs.mapM toJson? = some items ∧ (∀ j ∈ items, Plain j) ∧
      items.mapM ofJson? = some rs := by
  induction rs with
  | nil => exact ⟨[], rfl, List.forall_mem_nil _, rfl⟩
  | cons r rs ih =>
      obtain ⟨here, later⟩ := List.forall_mem_cons.mp texts
      obtain ⟨items, written, plain, again⟩ := ih later
      obtain ⟨j, json⟩ := Option.ne_none_iff_exists'.mp (mt toJson?_eq_none.mp (not_not_intro here))
      obtain ⟨path, file, rfl⟩ := toJson?_eq_some.mp json
      have same : ofJson? (record path r) = some r := by
        rw [ofJson?_record, ← file]
      refine ⟨record path r :: items, ?_, List.forall_mem_cons.mpr ⟨plain_record path r, plain⟩, ?_⟩
      · rw [List.mapM_cons, json, written]
        rfl
      · rw [List.mapM_cons, same, again]
        rfl

/-- What is attached is what is read back. -/
theorem decode?_encode {rs : List Replacement} (texts : ∀ r ∈ rs, r.file.IsText) :
    decode? (encode rs) = some rs := by
  obtain ⟨items, written, plain, again⟩ := exists_records texts
  rw [decode?, encode, written]
  dsimp only
  rw [Json.compact, String.toList_ofList, Json.parse?_render (.array plain)]
  exact again

/-- One path that is not UTF-8 makes the whole token empty. -/
theorem encode_of_not_isText {rs : List Replacement} {r : Replacement} (member : r ∈ rs)
    (other : ¬ r.file.IsText) : encode rs = "[]" := by
  have none : rs.mapM toJson? = none :=
    mapM_eq_none_iff.mpr ⟨r, member, toJson?_eq_none.mpr other⟩
  rw [encode, none]

theorem decode?_brackets : decode? "[]" = some [] := by decide +kernel

end Replacement

end LintReport
