import LintReport.Proofs.Path.Absolute
import LintReport.Proofs.Text.Lossy

set_option autoImplicit false

/- The text of a path taken for a path again. Slashes and dots stand for themselves in it, so it has
the names of the path with each ill-formed piece replaced, and a path in normal form stays one. -/
namespace LintReport

namespace Utf8

/-- Bytes with a replacement character for each ill-formed piece. -/
def repaired (bytes : List UInt8) : List UInt8 := encode (decodeLossy bytes)

@[simp] theorem repaired_nil : repaired [] = [] := by simp [repaired, decodeLossy, encode]

/-- Repairing makes no text of characters of one byte. -/
theorem eq_of_repaired_eq {bytes : List UInt8} {cs : List Char} (ascii : ∀ c ∈ cs, IsAscii c)
    (same : repaired bytes = encode cs) : bytes = encode cs :=
  eq_encode_of_decodeLossy ascii (encode_injective same)

theorem repaired_ne_nil {bytes : List UInt8} (filled : bytes ≠ []) : repaired bytes ≠ [] := by
  intro empty
  exact filled (eq_of_repaired_eq (List.forall_mem_nil _) empty)

theorem mem_of_mem_encode {b : UInt8} (ascii : b < 0x80) {cs : List Char} (member : b ∈ encode cs) :
    Char.ofNat b.toNat ∈ cs := by
  obtain ⟨front, rest, split⟩ := List.append_of_mem member
  have read := congrArg decodeLossy split
  rw [decodeLossy_encode, decodeLossy_append_ascii front rest ascii] at read
  rw [read]
  exact List.mem_append_right _ List.mem_cons_self

end Utf8

namespace Path

open LintReport.Utf8 (IsAscii repaired)

/-- A path that is UTF-8: some text has its bytes. -/
def IsText (p : Path) : Prop := ∃ s : String, p = ⟨s⟩

theorem text?_eq_some_iff {p : Path} {s : String} : p.text? = some s ↔ p = ⟨s⟩ := by
  rw [text?, Utf8.text?_eq_some_iff, Path.mk.injEq]
  exact eq_comm

theorem isText_iff {p : Path} : p.IsText ↔ p.text? ≠ none := by
  rw [Option.ne_none_iff_exists']
  exact exists_congr fun s => text?_eq_some_iff.symm

theorem IsText.mk_text {p : Path} (written : p.IsText) : (⟨p.text⟩ : Path) = p := by
  obtain ⟨s, rfl⟩ := written
  rw [text, Utf8.lossy_of_text]

instance (p : Path) : Decidable p.IsText := decidable_of_iff _ isText_iff.symm

theorem isAscii_slash : IsAscii '/' := by decide

theorem repaired_append_slash (front rest : List UInt8) :
    repaired (front ++ separator :: rest) = repaired front ++ separator :: repaired rest := by
  rw [repaired, Utf8.decodeLossy_append_ascii front rest (by decide), Utf8.encode_append]
  exact congrArg (_ ++ ·) (Utf8.encode_cons_ascii isAscii_slash _)

@[simp] theorem text_mk (s : String) : (⟨s⟩ : Path).text = s := Utf8.lossy_of_text s

theorem bytes_text (p : Path) : (p.text : List UInt8) = repaired p.bytes := by
  rw [text, Utf8.lossy, String.toList_ofList]
  rfl

theorem isName_repaired {n : FileName} (named : IsName n) : IsName (repaired n) := by
  obtain ⟨filled, slashless, noDot, noDots⟩ := named
  refine ⟨Utf8.repaired_ne_nil filled, fun slash => ?_, fun dot => ?_, fun dots => ?_⟩
  · apply slashless
    exact Utf8.mem_of_mem_decodeLossy isAscii_slash (Utf8.mem_of_mem_encode (by decide) slash)
  · have ascii : ∀ c ∈ ['.'], IsAscii c := Utf8.isAscii_of_all (by decide)
    exact noDot (Utf8.eq_of_repaired_eq ascii dot)
  · have ascii : ∀ c ∈ ['.', '.'], IsAscii c := Utf8.isAscii_of_all (by decide)
    exact noDots (Utf8.eq_of_repaired_eq ascii dots)

theorem repaired_spelled (names : List FileName) :
    repaired (spelled (names.map Part.name)) = spelled ((names.map repaired).map Part.name) := by
  induction names with
  | nil => exact Utf8.repaired_nil
  | cons n names ih =>
      rw [List.map_cons, List.map_cons, List.map_cons, spelled_cons, spelled_cons]
      cases names with
      | nil => simp [Part.bytes]
      | cons next names =>
          simp only [List.map_cons, List.isEmpty_cons, Bool.false_eq_true, if_false, Part.bytes]
          rw [repaired_append_slash]
          exact congrArg (repaired n ++ separator :: ·) ih

theorem repaired_below (names : List FileName) :
    repaired (below names).bytes = (below (names.map repaired)).bytes := by
  rw [bytes_below, bytes_below, ← repaired_spelled]
  have front := repaired_append_slash [] (spelled (names.map Part.name))
  rwa [Utf8.repaired_nil, List.nil_append, List.nil_append] at front

/-- The text of an absolute path in normal form names such a path. -/
theorem IsRooted.text_eq {p : Path} (rooted : p.IsRooted) :
    ∃ names, (∀ n ∈ names, IsName n) ∧ (p.text : List UInt8) = (below names).bytes := by
  obtain ⟨names, named, rfl⟩ := rooted.eq_below
  refine ⟨names.map repaired, ?_, (bytes_text _).trans (repaired_below names)⟩
  exact List.forall_mem_map.mpr fun n member => isName_repaired (named n member)

/-- What stands in front of the last slash of that text is empty or names such a path too. -/
theorem IsRooted.cut_text {p : Path} (rooted : p.IsRooted) {base piece : List Char}
    (whole : '/' ∉ piece) (cut : p.text.toList = base ++ '/' :: piece) :
    base = [] ∨ (⟨Utf8.encode base⟩ : Path).IsRooted := by
  obtain ⟨names, named, spelled⟩ := rooted.text_eq
  have cut' : (below names).bytes = Utf8.encode base ++ separator :: Utf8.encode piece := by
    rw [← spelled, cut, Utf8.encode_append, Utf8.encode_cons_ascii isAscii_slash]
    rfl
  have front := cut_below named (fun slash => whole (Utf8.mem_of_mem_encode (by decide) slash)) cut'
  rw [folderText] at front
  split at front
  · exact Or.inl (Utf8.encode_injective front)
  · rw [front]
    exact Or.inr (isRooted_below fun n member => named n (List.dropLast_subset names member))

theorem eq_of_text {p : Path} {written : String} (ascii : ∀ c ∈ written.toList, IsAscii c)
    (same : p.text = written) : p = ⟨written⟩ := by
  rw [Path.mk.injEq]
  refine Utf8.eq_encode_of_decodeLossy ascii ?_
  rw [← same, text, Utf8.lossy, String.toList_ofList]

end Path

end LintReport
