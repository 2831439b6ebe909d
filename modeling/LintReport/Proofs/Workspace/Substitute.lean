import LintReport.Proofs.Path.Absolute
import LintReport.Proofs.Text.Replace
import LintReport.Workspace

set_option autoImplicit false

/- Placeholders in a text that is read from the left once. Their paths are put in one after the
other, but since they start with a slash and no name of a folder holds one, this is the same as
all of them at once: no path makes up a placeholder, spoils one or is looked at again. -/
namespace LintReport

open LintReport.Text (Replaced Separated)

/-- An absolute path in which no placeholder begins. -/
structure Path.IsSolid (p : Path) : Prop where
  absolute : p.isAbsolute = true
  plain : '$' ∉ p.text.toList

/-- A folder whose name can stand in a placeholder and in no path. -/
structure WorkspaceFolder.IsSolid (folder : WorkspaceFolder) : Prop where
  path : folder.path.IsSolid
  plain : '$' ∉ folder.name.toList
  slashless : '/' ∉ folder.name.toList

namespace Workspace

/-- All placeholders with the paths that they stand for, that of the default folder first. -/
def placeholders (defaultFolder : Path) (folders : List WorkspaceFolder) :
    List (List Char × List Char) :=
  (placeholder, defaultFolder.text.toList) ::
    folders.map fun folder => (namedPlaceholder folder.name, folder.path.text.toList)

theorem foldl_placeholders (defaultFolder : Path) (folders : List WorkspaceFolder)
    (raw : List Char) :
    (placeholders defaultFolder folders).foldl
      (fun text entry => Text.replaceAll entry.1 entry.2 text) raw =
        substituteChars defaultFolder folders raw := by
  rw [placeholders, List.foldl_cons, List.foldl_map]
  rfl

theorem head?_of_isAbsolute {p : Path} (absolute : p.isAbsolute = true) :
    p.text.toList.head? = some '/' := by
  obtain ⟨rest, bytes⟩ := Path.isAbsolute_iff.mp absolute
  rw [Path.text, Utf8.lossy, bytes, Utf8.decodeLossy_ascii _ _ (by decide), String.toList_ofList]
  rfl

theorem separated_placeholder {defaultFolder : Path} (solid : defaultFolder.IsSolid) :
    Separated '$' '/' (placeholder, defaultFolder.text.toList) := by
  have marked : placeholder = '$' :: placeholder.tail ∧ '$' ∉ placeholder.tail := by decide
  have clear : '/' ∉ placeholder := by decide
  exact ⟨⟨placeholder.tail, marked⟩, clear, head?_of_isAbsolute solid.absolute, solid.plain⟩

theorem namedPlaceholder_eq (name : String) :
    namedPlaceholder name = '$' :: ("\x7bworkspaceFolder:".toList ++ name.toList ++ ['}']) := rfl

theorem not_mem_around {c : Char} {front name : List Char} (early : c ∉ front) (inName : c ∉ name)
    (late : c ≠ '}') : c ∉ front ++ name ++ ['}'] := by
  simp [early, inName, late]

theorem separated_namedPlaceholder {folder : WorkspaceFolder} (solid : folder.IsSolid) :
    Separated '$' '/' (namedPlaceholder folder.name, folder.path.text.toList) := by
  have once : '$' ∉ "\x7bworkspaceFolder:".toList ++ folder.name.toList ++ ['}'] :=
    not_mem_around (by decide) solid.plain (by decide)
  have clear : '/' ∉ namedPlaceholder folder.name :=
    not_mem_around (by decide) solid.slashless (by decide)
  exact ⟨⟨_, namedPlaceholder_eq folder.name, once⟩, clear,
    head?_of_isAbsolute solid.path.absolute, solid.path.plain⟩

theorem separated_placeholders {defaultFolder : Path} (solid : defaultFolder.IsSolid)
    {folders : List WorkspaceFolder} (solids : ∀ folder ∈ folders, folder.IsSolid) :
    ∀ entry ∈ placeholders defaultFolder folders, Separated '$' '/' entry := by
  rw [placeholders, List.forall_mem_cons, List.forall_mem_map]
  exact ⟨separated_placeholder solid, fun folder member =>
    separated_namedPlaceholder (solids folder member)⟩

/-- Substitution is one pass over the text in which each placeholder gives way to the path of the
first folder it stands for. No placeholder of these folders is left. -/
theorem substitute_replaced (defaultFolder : Path) (folders : List WorkspaceFolder)
    (solid : defaultFolder.IsSolid) (solids : ∀ folder ∈ folders, folder.IsSolid)
    (raw : String) :
    let result := (substitute defaultFolder folders raw).toList
    (∀ out, Replaced (placeholders defaultFolder folders) raw.toList out ↔ result = out) ∧
      ¬ placeholder <:+: result ∧
      ∀ folder ∈ folders, ¬ namedPlaceholder folder.name <:+: result := by
  intro result
  have separated := separated_placeholders solid solids
  have text : result = substituteChars defaultFolder folders raw.toList := String.toList_ofList
  have pass (out : List Char) :
      Replaced (placeholders defaultFolder folders) raw.toList out ↔ result = out := by
    rw [text, ← foldl_placeholders]
    exact Replaced.iff_foldl_replaceAll separated
  have replaced := (pass result).mpr rfl
  refine ⟨pass, replaced.not_infix separated List.mem_cons_self, ?_⟩
  intro folder member
  have listed : (namedPlaceholder folder.name, folder.path.text.toList) ∈
      placeholders defaultFolder folders :=
    List.mem_cons_of_mem _ (List.mem_map_of_mem member)
  exact replaced.not_infix separated listed

/-- Of two names the first in the list counts, and a placeholder in a name is one of its own: what
it leaves is none. -/
theorem substitute_replaced_nested :
    let folders := [WorkspaceFolder.named "a" ⟨"/p"⟩, WorkspaceFolder.named "a\x7db" ⟨"/q"⟩]
    let raw := "$\x7bworkspaceFolder:a\x7db\x7d$\x7bworkspaceFolder:" ++
      "$\x7bworkspaceFolder\x7d\x7d"
    let out := "/pb\x7d$\x7bworkspaceFolder:/w\x7d"
    (⟨"/w"⟩ : Path).IsSolid ∧ (∀ folder ∈ folders, folder.IsSolid) ∧
      Replaced (placeholders ⟨"/w"⟩ folders) raw.toList out.toList ∧
      ¬ placeholder <:+: out.toList := by
  intro folders raw out
  have solid : (⟨"/w"⟩ : Path).IsSolid := ⟨rfl, by decide +kernel⟩
  have solids : ∀ folder ∈ folders, folder.IsSolid := by
    have first : (WorkspaceFolder.named "a" ⟨"/p"⟩).IsSolid :=
      ⟨⟨by decide +kernel, by decide +kernel⟩, by decide, by decide⟩
    have second : (WorkspaceFolder.named "a\x7db" ⟨"/q"⟩).IsSolid :=
      ⟨⟨by decide +kernel, by decide +kernel⟩, by decide, by decide⟩
    simpa [folders] using And.intro first second
  have result : substitute ⟨"/w"⟩ folders raw = out := by decide +kernel
  obtain ⟨pass, none, _⟩ := substitute_replaced ⟨"/w"⟩ folders solid solids raw
  rw [result] at pass none
  exact ⟨solid, solids, (pass _).mpr rfl, none⟩

end Workspace

end LintReport
