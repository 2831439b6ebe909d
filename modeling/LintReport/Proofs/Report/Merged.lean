import LintReport.Host
import LintReport.Proofs.Output.Block
import LintReport.Proofs.Output.Message
import LintReport.Proofs.Report.Collate

set_option autoImplicit false

/- Reading the error stream as well. It is put behind the output, so all that the output alone
yields is still there, and in the same order. -/
namespace LintReport

theorem Host.continues_captured (out err : List UInt8) :
    Text.Continues (Text.wholeLines (captured false out err))
      (Text.wholeLines (captured true out err)) := by
  rw [captured_false, captured]
  split
  · exact Text.continues_wholeLines _ _
  · have same := Text.continues_append (Text.wholeLines (Utf8.decodeLossy out)) []
    rwa [List.append_nil] at same

/-- A block that was found is found again, so its findings are. -/
theorem Finding.scan_continued {text longer : List Char}
    (continued : Text.Continues (Text.wholeLines text) (Text.wholeLines longer)) :
    (scan text).Sublist (scan longer) := by
  unfold scan
  cases found : Block.locate? text with
  | none => exact List.nil_sublist _
  | some block =>
      rw [Block.locate?_continued continued found]

namespace Report

variable (policy : PathPolicy) (disk : Disk) (document : Document)

theorem entries_continued {text longer : List Char}
    (continued : Text.Continues (Text.wholeLines text) (Text.wholeLines longer)) :
    (entries policy disk document text).Sublist (entries policy disk document longer) := by
  have messages := (CompilerMessage.scan_continued continued).sublist
  exact ((messages.filter _).filterMap _).append ((Finding.scan_continued continued).filterMap _)

/-- With the error stream behind the output the messages begin as before, the block of findings
is the same, and each file keeps its diagnostics, in their order. -/
theorem collate_captured (profile : Profile) (disk : Disk) (path : Path) (language : String)
    (version : Int) (content : List UInt8) (out err : List UInt8) :
    let document := Document.ofContent path language version content
    let text := Host.captured false out err
    let merged := Host.captured true out err
    let apart := collate { profile with mergeStderr := false } disk document text
    let joined := collate { profile with mergeStderr := true } disk document merged
    CompilerMessage.scan text <+: CompilerMessage.scan merged ∧
    (∀ block, Block.locate? text = some block → Block.locate? merged = some block) ∧
    ∀ p ds, apart.get? p = some ds → ∃ ds', joined.get? p = some ds' ∧ ds.Sublist ds' := by
  intro document text merged apart joined
  have continued := Host.continues_captured out err
  have normal : document.path.IsNormal := Document.isNormal_ofContent path language version content
  refine ⟨CompilerMessage.scan_continued continued,
    fun block => Block.locate?_continued continued, ?_⟩
  intro p ds found
  have pushed : apart = _ := collate_eq_pushAll disk _ normal text
  have pushed' : joined = _ := collate_eq_pushAll disk _ normal merged
  rw [pushed] at found
  rw [pushed']
  exact DiagnosticMap.get?_pushAll_of_sublist (DiagnosticMap.wellFormed_ofPrimary _)
    (entries_continued _ disk document continued) found

end Report

end LintReport
