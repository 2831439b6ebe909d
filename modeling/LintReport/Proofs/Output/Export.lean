import LintReport.Output.Finding
import LintReport.Proofs.Yaml.Written

set_option autoImplicit false

/- Findings as an analyzer exports them. A finding is written in one of two layouts: older ones
have the message and its place in the finding's own record, newer ones in a record within it.
A list without items is left out. -/
namespace LintReport

namespace Export

open Yaml (Key)
open Yaml.Written (Value Record Items Inline)

/-! What is written. -/

def mainSourceFile : Key := ⟨"MainSourceFile", by decide, by decide, by decide⟩
def diagnostics : Key := ⟨"Diagnostics", by decide, by decide, by decide⟩
def diagnosticName : Key := ⟨"DiagnosticName", by decide, by decide, by decide⟩
def diagnosticMessage : Key := ⟨"DiagnosticMessage", by decide, by decide, by decide⟩
def message : Key := ⟨"Message", by decide, by decide, by decide⟩
def fileOffset : Key := ⟨"FileOffset", by decide, by decide, by decide⟩
def filePath : Key := ⟨"FilePath", by decide, by decide, by decide⟩
def replacements : Key := ⟨"Replacements", by decide, by decide, by decide⟩
def offset : Key := ⟨"Offset", by decide, by decide, by decide⟩
def length : Key := ⟨"Length", by decide, by decide, by decide⟩
def replacementText : Key := ⟨"ReplacementText", by decide, by decide, by decide⟩

/-- Where a finding has its message. -/
inductive Layout where
  | flat
  | nested
  deriving DecidableEq, Repr

def items (first : Record) : List Record → Items
  | [] => .one first
  | r :: rest => .cons first (items r rest)

/-- A field, and behind it a list of records unless there are none. -/
def withList (key : Key) (value : Value) (listKey : Key) : List Record → Record
  | [] => .one key value
  | r :: rest => .cons key value (.one listKey (.sequence (items r rest)))

def number (n : UInt64) : Value := .number n.toNat

def replacement (r : RawReplacement) : Record :=
  .cons filePath (.quoted r.filePath) <| .cons offset (number r.offset) <|
    .cons length (number r.length) <| .one replacementText (.quoted r.text)

/-- The record within a finding of the nested layout. -/
def body (f : Finding) : Record :=
  .cons message (.quoted f.message) <| .cons filePath (.quoted f.filePath) <|
    withList fileOffset (number f.fileOffset) replacements (f.replacements.map replacement)

def finding (layout : Layout) (f : Finding) : Record :=
  match layout with
  | .flat =>
      .cons diagnosticName (.quoted f.rule) <| .cons message (.quoted f.message) <|
        .cons fileOffset (number f.fileOffset) <|
          withList filePath (.quoted f.filePath) replacements (f.replacements.map replacement)
  | .nested =>
      .cons diagnosticName (.quoted f.rule) <| .one diagnosticMessage (.record (body f))

/-- The root of an export: the file that was analyzed and the findings. -/
def root (main : String) (fs : List (Layout × Finding)) : Record :=
  withList mainSourceFile (.quoted main) diagnostics (fs.map fun f => finding f.1 f.2)

/-- An export with its first and its last line. -/
def text (main : String) (fs : List (Layout × Finding)) : List Char :=
  ['-', '-', '-', '\n'] ++ (root main fs).document ++ ['.', '.', '.']

/-- The texts that a finding holds. -/
def texts (f : Finding) : List String :=
  [f.rule, f.message, f.filePath] ++ f.replacements.flatMap fun r => [r.filePath, r.text]

theorem texts_items (first : Record) (rest : List Record) :
    (items first rest).texts = (first :: rest).flatMap Record.texts := by
  induction rest generalizing first with
  | nil => simp [items, Items.texts]
  | cons r rest ih => exact congrArg (first.texts ++ ·) (ih r)

theorem texts_withList (key : Key) (value : Value) (listKey : Key) (rs : List Record) :
    (withList key value listKey rs).texts = value.texts ++ rs.flatMap Record.texts := by
  cases rs with
  | nil => simp [withList, Record.texts]
  | cons r rest => rw [withList, Record.texts, Record.texts, Value.texts, texts_items]

theorem texts_finding (layout : Layout) (f : Finding) : (finding layout f).texts = texts f := by
  have changes : (f.replacements.map replacement).flatMap Record.texts =
      f.replacements.flatMap fun r => [r.filePath, r.text] := by
    rw [List.flatMap_map]
    rfl
  cases layout with
  | flat =>
      simp only [finding, Record.texts, texts_withList, changes, texts, number, Value.texts,
        List.nil_append, List.cons_append]
  | nested =>
      simp only [finding, body, Record.texts, texts_withList, changes, texts, number, Value.texts,
        List.nil_append, List.cons_append]

/-- The texts in an export are those of its findings. -/
theorem texts_root (main : String) (fs : List (Layout × Finding)) :
    (root main fs).texts = main :: fs.flatMap fun f => texts f.2 := by
  rw [root, texts_withList, List.flatMap_map]
  simp only [texts_finding]
  rfl

/-- The fields of a record, by their names. -/
def fields : Record → List (String × Yaml.Node Nat)
  | .one key value => [(key.name, value.node Nat)]
  | .cons key value rest => (key.name, value.node Nat) :: fields rest

/-- The node of a record. -/
def mapping (r : Record) : Yaml.Node Nat := .mapping none none (r.entries Nat)

theorem nodes_items (first : Record) (rest : List Record) :
    (items first rest).nodes Nat = (first :: rest).map mapping := by
  induction rest generalizing first with
  | nil => rfl
  | cons r rest ih => exact congrArg (mapping first :: ·) (ih r)

/-- The field `name` holds a list, and is not there when the list is empty. -/
def Lists (entries : List (String × Yaml.Node Nat)) (name : String)
    (nodes : List (Yaml.Node Nat)) : Prop :=
  nodes = [] ∧ name ∉ entries.map Prod.fst ∨ (name, Yaml.Node.sequence none none nodes) ∈ entries

theorem Lists.cons {entries : List (String × Yaml.Node Nat)} {name : String}
    {nodes : List (Yaml.Node Nat)} (lists : Lists entries name nodes)
    {key : String} {node : Yaml.Node Nat} (other : name ≠ key) :
    Lists ((key, node) :: entries) name nodes := by
  rcases lists with ⟨none, missing⟩ | member
  · exact Or.inl ⟨none, by simpa [other] using missing⟩
  · exact Or.inr (List.mem_cons_of_mem _ member)

theorem lists_withList (key : Key) (value : Value) {listKey : Key} (other : listKey.name ≠ key.name)
    (rs : List Record) : Lists (fields (withList key value listKey rs)) listKey.name
      (rs.map mapping) := by
  cases rs with
  | nil => exact Or.inl ⟨rfl, by simpa [withList, fields] using other⟩
  | cons r rest =>
      refine Or.inr (List.mem_cons_of_mem _ ?_)
      rw [fields, Value.node, nodes_items]
      exact List.mem_cons_self

theorem mem_fields_withList (key : Key) (value : Value) (listKey : Key) (rs : List Record) :
    (key.name, value.node Nat) ∈ fields (withList key value listKey rs) := by
  cases rs <;> exact List.mem_cons_self

theorem keys_withList (key : Key) (value : Value) (listKey : Key) (rs : List Record) :
    ((fields (withList key value listKey rs)).map Prod.fst).Sublist [key.name, listKey.name] := by
  cases rs with
  | nil => exact (List.nil_sublist _).cons_cons key.name
  | cons r rest => exact List.Sublist.refl _

end Export

end LintReport
