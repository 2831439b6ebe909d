import LintReport.Proofs.Position.Ordered
import LintReport.Proofs.Report.Collate

set_option autoImplicit false

/- The ranges of the replacements in a report. Each is one of the file that it is about, and it
does not end before it starts, whatever offset and length the output gives. -/
namespace LintReport

/-- A range of a content, which starts no later than it ends. -/
structure Range.IsIn (content : List UInt8) (range : Range) : Prop where
  ordered : range.start ≤ range.stop
  start : range.start.IsIn content
  stop : range.stop.IsIn content

/-- The range between two offsets, the later one behind the earlier. -/
theorem Range.isIn_positionIn {content : List UInt8} (short : content.length < 2 ^ 32)
    {start stop : Nat} (ordered : start ≤ stop) :
    Range.IsIn content ⟨positionIn content start, positionIn content stop⟩ where
  ordered := LineIndex.positionAt_mono short ordered
  start := LineIndex.isIn_positionAt short start
  stop := LineIndex.isIn_positionAt short stop

namespace Report

variable {policy : PathPolicy} {disk : Disk} {document : Document}

/-- The end of a replacement is never in front of its offset, also where their sum is cut off. -/
theorem isIn_replacementAnew {raw : RawReplacement} {range : Range}
    (ranged : (replacementAnew policy disk document raw).range = some range) :
    ∃ content, document.contentAt? disk (replacementAnew policy disk document raw).file =
      some content ∧ (content.length < 2 ^ 32 → range.IsIn content) := by
  have bounded := raw.offset.toNat_lt
  have ordered : raw.offset.toNat ≤
      min (raw.offset.toNat + raw.length.toNat) Replacement.maxOffset := by
    unfold Replacement.maxOffset
    rw [UInt64.size]
    omega
  obtain ⟨content, found, rfl⟩ := Option.map_eq_some_iff.mp ranged
  exact ⟨content, found, fun short => Range.isIn_positionIn short ordered⟩

/-- Positions keep the order of their offsets and belong to the content. So each range that a report
gives to a replacement lies in the replacement's own file and does not end before it starts. -/
theorem collate_ranges (profile : Profile) (disk : Disk) (path : Path) (language : String)
    (version : Int) (content : List UInt8) (output : List Char) :
    let document := Document.ofContent path language version content
    let result := collate profile disk document output
    (∀ bytes : List UInt8, bytes.length < 2 ^ 32 →
      (∀ a b, a ≤ b → positionIn bytes a ≤ positionIn bytes b) ∧
        ∀ a, (positionIn bytes a).IsIn bytes) ∧
    ∀ p ∈ result.paths, ∀ d ∈ (result.get? p).getD [], ∃ rs, d.replacements? = some rs ∧
      ∀ r ∈ rs, ∀ range, r.range = some range →
        ∃ bytes, document.contentAt? disk r.file = some bytes ∧
          (bytes.length < 2 ^ 32 → range.IsIn bytes) := by
  intro document result
  have normal : document.path.IsNormal := Document.isNormal_ofContent path language version content
  constructor
  · intro bytes short
    exact ⟨fun a b => LineIndex.positionAt_mono short, LineIndex.isIn_positionAt short⟩
  · intro p member d listed
    have normal' := isNormal_of_mem_paths disk profile normal member
    rw [getD_get?_collate disk profile normal output normal', List.mem_append] at listed
    rcases listed with error | warning
    · obtain ⟨message, _, rfl⟩ := List.mem_map.mp error
      exact ⟨[], rfl, fun _ none => absurd none List.not_mem_nil⟩
    · obtain ⟨f, _, rfl⟩ := List.mem_map.mp warning
      have placed := @placed_warningAnew (.ofProfile profile document.path) disk document p f
      by_cases texts : ∀ raw ∈ f.replacements,
          ((PathPolicy.ofProfile profile document.path).absolutize raw.filePath).IsText
      · refine ⟨_, placed.replacements texts, ?_⟩
        intro r made range ranged
        obtain ⟨raw, _, rfl⟩ := List.mem_map.mp made
        exact isIn_replacementAnew ranged
      · have lost := placed.lost (by simpa using texts)
        exact ⟨[], lost.2, List.forall_mem_nil _⟩

end Report

end LintReport
