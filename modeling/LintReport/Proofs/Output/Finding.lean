import LintReport.Proofs.Output.Delimited
import LintReport.Proofs.Output.Export
import LintReport.Proofs.Yaml.Kind
import LintReport.Proofs.Yaml.Node

set_option autoImplicit false

/- What is read back from an export. A record is read by the names of its fields, so their order
does not matter; the fields of a finding's own record take the way through the kinds of their
scalars. -/
namespace LintReport

namespace Finding

open Yaml.Written (Value Record Items)
open Export (fields mapping)

/-! Fields by their names. -/

section

variable {α β : Type} {entries : List (String × α)} {name : String} {a : α}

theorem filter_of_not_mem (missing : name ∉ entries.map Prod.fst) :
    (entries.filter fun e => e.1 = name) = [] := by
  refine List.filter_eq_nil_iff.mpr fun e member => ?_
  have other : e.1 ≠ name := fun same => missing (List.mem_map.mpr ⟨e, member, same⟩)
  simpa using other

theorem filter_of_mem (distinct : (entries.map Prod.fst).Nodup) (member : (name, a) ∈ entries) :
    (entries.filter fun e => e.1 = name) = [(name, a)] := by
  induction entries with
  | nil => cases member
  | cons e entries ih =>
      rw [List.map_cons, List.nodup_cons] at distinct
      rcases List.mem_cons.mp member with rfl | member
      · rw [List.filter_cons_of_pos (by simp), filter_of_not_mem distinct.1]
      · have other : e.1 ≠ name := by
          rintro rfl
          exact distinct.1 (List.mem_map.mpr ⟨_, member, rfl⟩)
        rw [List.filter_cons_of_neg (by simpa using other), ih distinct.2 member]

theorem field?_of_mem (distinct : (entries.map Prod.fst).Nodup) (member : (name, a) ∈ entries) :
    field? name entries = some (some a) := by
  rw [field?, filter_of_mem distinct member]

theorem field?_of_not_mem (missing : name ∉ entries.map Prod.fst) :
    field? name entries = some none := by
  rw [field?, filter_of_not_mem missing]

theorem readField_of_mem (distinct : (entries.map Prod.fst).Nodup)
    (member : (name, a) ∈ entries) (default : β) (read : α → Reading β) :
    readField entries name default read = read a := by
  rw [readField, field?_of_mem distinct member]
  rfl

theorem readField_of_not_mem (missing : name ∉ entries.map Prod.fst) (default : β)
    (read : α → Reading β) : readField entries name default read = pure default := by
  rw [readField, field?_of_not_mem missing]
  rfl

theorem Content.fieldOr_of_mem (distinct : (entries.map Prod.fst).Nodup)
    (member : (name, a) ∈ entries) (default : β) (read : α → Option β) :
    Content.fieldOr entries name default read = read a := by
  rw [Content.fieldOr, field?_of_mem distinct member]

theorem Content.fieldOr_of_not_mem (missing : name ∉ entries.map Prod.fst) (default : β)
    (read : α → Option β) : Content.fieldOr entries name default read = some default := by
  rw [Content.fieldOr, field?_of_not_mem missing]

end

variable (d : Yaml.Document)

/-! Records read directly. -/

theorem readText_scalar (tag anchor : Option String) (text : String) (plain : Bool) :
    readText d (.scalar tag anchor text plain) = pure text := rfl

theorem mapM_entries (r : Record) :
    ((r.entries Nat).mapM fun e => do pure (← readText d e.1, e.2) :
      Reading (List (String × Yaml.Node Nat))) = pure (fields r) := by
  cases r with
  | one key value =>
      simp only [Record.entries, List.mapM_cons, List.mapM_nil, readText_scalar, pure_bind]
      rfl
  | cons key value rest =>
      rw [Record.entries, List.mapM_cons, mapM_entries rest, readText_scalar]
      rfl

theorem readEntries_mapping (r : Record) : readEntries d (mapping r) = pure (fields r) :=
  mapM_entries d r

theorem kindOf?_decimal (n : UInt64) :
    kindOf? none (String.ofList (Text.decimal n.toNat)) true = some (.natural n.toNat) := by
  rw [kindOf?, if_pos rfl, Yaml.Kind.ofText_decimal n.toNat_lt]

theorem offsetOf?_natural (n : UInt64) : offsetOf? (.natural n.toNat) = some n := by
  simp [offsetOf?]

theorem readOffset_number (n : UInt64) :
    readOffset d ((Export.number n).node Nat) = pure n := by
  change (monadLift ((kindOf? none (String.ofList (Text.decimal n.toNat)) true).bind offsetOf?) :
    Reading UInt64) = pure n
  rw [kindOf?_decimal, Option.bind_some, offsetOf?_natural]
  rfl

theorem readReplacement_mapping (r : RawReplacement) :
    readReplacement d (mapping (Export.replacement r)) = pure r := by
  have distinct : ((fields (Export.replacement r)).map Prod.fst).Nodup := by
    change ["FilePath", "Offset", "Length", "ReplacementText"].Nodup
    decide
  have filePath : ("FilePath", (Value.quoted r.filePath).node Nat) ∈
      fields (Export.replacement r) := List.mem_cons_self
  have offset : ("Offset", (Export.number r.offset).node Nat) ∈
      fields (Export.replacement r) := List.mem_cons_of_mem _ List.mem_cons_self
  have length : ("Length", (Export.number r.length).node Nat) ∈
      fields (Export.replacement r) :=
    List.mem_cons_of_mem _ (List.mem_cons_of_mem _ List.mem_cons_self)
  have text : ("ReplacementText", (Value.quoted r.text).node Nat) ∈
      fields (Export.replacement r) :=
    List.mem_cons_of_mem _ (List.mem_cons_of_mem _ (List.mem_cons_of_mem _ List.mem_cons_self))
  simp only [readReplacement, readEntries_mapping, pure_bind, readField_of_mem distinct filePath,
    readField_of_mem distinct offset, readField_of_mem distinct length,
    readField_of_mem distinct text, readOffset_number, Value.node, readText_scalar]

/-- A list of records is read by reading each of them. -/
theorem readField_lists {α β : Type} {entries : List (String × Yaml.Node Nat)} {name : String}
    (distinct : (entries.map Prod.fst).Nodup) {write : α → Record} {result : α → β}
    {read : Yaml.Node Nat → Reading β} (exact : ∀ a, read (mapping (write a)) = pure (result a))
    {as : List α} (lists : Export.Lists entries name ((as.map write).map mapping)) :
    (readField entries name [] (readOptional d [] fun node => do
      (← readItems d node).mapM read)) = pure (as.map result) := by
  have each : read ∘ (mapping ∘ write) = fun a => pure (result a) := funext exact
  rw [List.map_map] at lists
  rcases lists with ⟨none, missing⟩ | member
  · rw [readField_of_not_mem missing, List.map_eq_nil_iff.mp none, List.map_nil]
  · rw [readField_of_mem distinct member]
    change (as.map (mapping ∘ write)).mapM read = _
    rw [List.mapM_map, each, List.mapM_pure]

theorem readBody_mapping (f : Finding) :
    readBody d (mapping (Export.body f)) =
      pure (Body.mk f.message f.fileOffset f.filePath f.replacements) := by
  have keys : ((fields (Export.body f)).map Prod.fst).Sublist
      ["Message", "FilePath", "FileOffset", "Replacements"] :=
    ((Export.keys_withList _ _ _ _).cons_cons _).cons_cons _
  have distinct := keys.nodup (by decide)
  have message : ("Message", (Value.quoted f.message).node Nat) ∈ fields (Export.body f) :=
    List.mem_cons_self
  have filePath : ("FilePath", (Value.quoted f.filePath).node Nat) ∈ fields (Export.body f) :=
    List.mem_cons_of_mem _ List.mem_cons_self
  have fileOffset : ("FileOffset", (Export.number f.fileOffset).node Nat) ∈
      fields (Export.body f) :=
    List.mem_cons_of_mem _ (List.mem_cons_of_mem _ (Export.mem_fields_withList _ _ _ _))
  have replacements : Export.Lists (fields (Export.body f)) "Replacements"
      ((f.replacements.map Export.replacement).map mapping) :=
    ((Export.lists_withList _ _ (by decide) _).cons (by decide)).cons (by decide)
  rw [readBody, readEntries_mapping, pure_bind, readField_of_mem distinct message,
    readField_of_mem distinct fileOffset, readField_of_mem distinct filePath,
    readField_lists d distinct (readReplacement_mapping d) replacements, readOffset_number]
  simp only [Value.node, readText_scalar, pure_bind, List.map_id']

theorem readOptional_mapping {β : Type} (default : β) (read : Yaml.Node Nat → Reading β)
    (r : Record) : readOptional d default read (mapping r) = read (mapping r) := rfl

theorem readFinding_nested (f : Finding) :
    readFinding d (mapping (Export.finding .nested f)) = pure f := by
  have distinct : ((fields (Export.finding .nested f)).map Prod.fst).Nodup := by
    change ["DiagnosticName", "DiagnosticMessage"].Nodup
    decide
  have rule : ("DiagnosticName", (Value.quoted f.rule).node Nat) ∈
      fields (Export.finding .nested f) := List.mem_cons_self
  have nested : ("DiagnosticMessage", mapping (Export.body f)) ∈
      fields (Export.finding .nested f) := List.mem_cons_of_mem _ List.mem_cons_self
  have none : ((fields (Export.finding .nested f)).filter fun e =>
      !(e.1 = "DiagnosticName" || e.1 = "DiagnosticMessage")) = [] := rfl
  have own : Content.body? [] = some ⟨"", 0, "", []⟩ := rfl
  rw [readFinding, readEntries_mapping, pure_bind]
  simp only [none, List.mapM_nil, pure_bind, own, readField_of_mem distinct rule,
    readField_of_mem distinct nested, readOptional_mapping, readBody_mapping, Value.node,
    readText_scalar]
  rfl

/-! Records read by the kinds of their scalars. -/

def Content.ofNumber (n : UInt64) : Content :=
  .scalar (.natural n.toNat) (String.ofList (Text.decimal n.toNat))

def Content.fieldsOf (r : RawReplacement) : List (String × Content) :=
  [("FilePath", .scalar .text r.filePath), ("Offset", .ofNumber r.offset),
    ("Length", .ofNumber r.length), ("ReplacementText", .scalar .text r.text)]

/-- What a replacement in the finding's own record is read as. -/
def Content.ofReplacement (r : RawReplacement) : Content :=
  .mapping ((Content.fieldsOf r).map fun e => (.scalar .text e.1, e.2))

theorem readContent_scalar (depth : Nat) {text : String} {plain : Bool} {kind : Yaml.Kind}
    (known : kindOf? none text plain = some kind) (narrow : kind ≠ .wide) :
    readContent d depth (.scalar none none text plain) = pure (.scalar kind text) := by
  rw [readContent.eq_def]
  simp only [follow, pure_bind, known, isLocalTag, Option.any_none]
  cases kind with
  | wide => exact absurd rfl narrow
  | _ => rfl

theorem readContent_quoted (depth : Nat) (s : String) :
    readContent d depth ((Value.quoted s).node Nat) = pure (.scalar .text s) :=
  readContent_scalar d depth rfl (by decide)

theorem readContent_number (depth : Nat) (n : UInt64) :
    readContent d depth ((Export.number n).node Nat) = pure (.ofNumber n) :=
  readContent_scalar d depth (kindOf?_decimal n) (by simp)

/-- The names of a replacement's fields are texts. -/
theorem readContent_key (depth : Nat) (key : Yaml.Key)
    (text : Yaml.Kind.ofText key.name = .text) :
    readContent d depth (.scalar none none key.name true) = pure (.scalar .text key.name) :=
  readContent_scalar d depth (by rw [kindOf?, if_pos rfl, text]) (by decide)

theorem readContent_replacement (depth : Nat) (r : RawReplacement) :
    readContent d (depth + 1) (mapping (Export.replacement r)) = pure (.ofReplacement r) := by
  have filePath := readContent_key d depth Export.filePath (by decide)
  have offset := readContent_key d depth Export.offset (by decide)
  have length := readContent_key d depth Export.length (by decide)
  have text := readContent_key d depth Export.replacementText (by decide)
  rw [mapping, readContent.eq_def]
  simp only [Export.replacement, Record.entries, follow, pure_bind, isLocalTag, Option.any_none,
    List.mapM_cons, List.mapM_nil, readContent_quoted, readContent_number, filePath, offset,
    length, text]
  rfl

theorem readContent_list (depth : Nat) (rs : List RawReplacement) :
    readContent d (depth + 2) (.sequence none none ((rs.map Export.replacement).map mapping)) =
      pure (.list (rs.map Content.ofReplacement)) := by
  have each : readContent d (depth + 1) ∘ (mapping ∘ Export.replacement) =
      fun r => pure (Content.ofReplacement r) := funext (readContent_replacement d depth)
  rw [readContent.eq_def]
  simp only [follow, pure_bind, isLocalTag, Option.any_none, List.map_map, List.mapM_map, each,
    List.mapM_pure]
  rfl

theorem offset?_ofNumber (n : UInt64) : Content.offset? (.ofNumber n) = some n :=
  offsetOf?_natural n

theorem replacement?_ofReplacement (r : RawReplacement) :
    Content.replacement? (.ofReplacement r) = some r := by
  have distinct : ((Content.fieldsOf r).map Prod.fst).Nodup := by
    change ["FilePath", "Offset", "Length", "ReplacementText"].Nodup
    decide
  have filePath : ("FilePath", .scalar .text r.filePath) ∈ Content.fieldsOf r := by
    simp [Content.fieldsOf]
  have offset : ("Offset", .ofNumber r.offset) ∈ Content.fieldsOf r := by
    simp [Content.fieldsOf]
  have length : ("Length", .ofNumber r.length) ∈ Content.fieldsOf r := by
    simp [Content.fieldsOf]
  have text : ("ReplacementText", .scalar .text r.text) ∈ Content.fieldsOf r := by
    simp [Content.fieldsOf]
  change (do
    let filePath ← Content.fieldOr (Content.fieldsOf r) "FilePath" "" Content.text?
    let offset ← Content.fieldOr (Content.fieldsOf r) "Offset" 0 Content.offset?
    let length ← Content.fieldOr (Content.fieldsOf r) "Length" 0 Content.offset?
    let text ← Content.fieldOr (Content.fieldsOf r) "ReplacementText" "" Content.text?
    some (RawReplacement.mk filePath offset length text)) = some r
  rw [Content.fieldOr_of_mem distinct filePath, Content.fieldOr_of_mem distinct offset,
    Content.fieldOr_of_mem distinct length, Content.fieldOr_of_mem distinct text,
    offset?_ofNumber, offset?_ofNumber]
  rfl

theorem replacements?_list (rs : List RawReplacement) :
    Content.replacements? (.list (rs.map Content.ofReplacement)) = some rs := by
  have each : Content.replacement? ∘ Content.ofReplacement = fun r => pure r :=
    funext replacement?_ofReplacement
  rw [Content.replacements?, List.mapM_map, each, List.mapM_pure, List.map_id']
  rfl

/-- What the fields of a finding's own record are read as. -/
def Content.ownFields (f : Finding) : List (String × Content) :=
  ("Message", .scalar .text f.message) :: ("FileOffset", .ofNumber f.fileOffset) ::
    ("FilePath", .scalar .text f.filePath) ::
      if f.replacements = [] then []
      else [("Replacements", .list (f.replacements.map .ofReplacement))]

theorem readContent_own (f : Finding) :
    (((fields (Export.finding .flat f)).filter fun e =>
      !(e.1 = "DiagnosticName" || e.1 = "DiagnosticMessage")).mapM fun e => do
        pure (e.1, ← readContent d contentDepth e.2) : Reading (List (String × Content))) =
      pure (Content.ownFields f) := by
  obtain ⟨rule, message, fileOffset, filePath, rs⟩ := f
  cases rs with
  | nil =>
      change ([("Message", (Value.quoted message).node Nat),
        ("FileOffset", (Export.number fileOffset).node Nat),
        ("FilePath", (Value.quoted filePath).node Nat)].mapM fun e => do
          pure (e.1, ← readContent d contentDepth e.2)) = _
      simp only [List.mapM_cons, List.mapM_nil, readContent_quoted, readContent_number, pure_bind]
      rfl
  | cons r rest =>
      have list := readContent_list d 123 (r :: rest)
      rw [List.map_cons, ← Export.nodes_items] at list
      change ([("Message", (Value.quoted message).node Nat),
        ("FileOffset", (Export.number fileOffset).node Nat),
        ("FilePath", (Value.quoted filePath).node Nat),
        ("Replacements", .sequence none none ((Export.items (Export.replacement r)
          (rest.map Export.replacement)).nodes Nat))].mapM fun e => do
            pure (e.1, ← readContent d contentDepth e.2)) = _
      simp only [List.mapM_cons, List.mapM_nil, readContent_quoted, readContent_number, pure_bind,
        contentDepth, list]
      rfl

theorem body?_ownFields (f : Finding) : Content.body? (Content.ownFields f) =
    some ⟨f.message, f.fileOffset, f.filePath, f.replacements⟩ := by
  have distinct : ((Content.ownFields f).map Prod.fst).Nodup := by
    unfold Content.ownFields
    split <;> simp
  have message : ("Message", .scalar .text f.message) ∈ Content.ownFields f := by
    simp [Content.ownFields]
  have fileOffset : ("FileOffset", .ofNumber f.fileOffset) ∈ Content.ownFields f := by
    simp [Content.ownFields]
  have filePath : ("FilePath", .scalar .text f.filePath) ∈ Content.ownFields f := by
    simp [Content.ownFields]
  have replacements : Content.fieldOr (Content.ownFields f) "Replacements" []
      Content.replacements? = some f.replacements := by
    by_cases none : f.replacements = []
    · rw [Content.fieldOr_of_not_mem (by simp [Content.ownFields, none]), none]
    · rw [Content.fieldOr_of_mem distinct (a := .list (f.replacements.map .ofReplacement))
        (by simp [Content.ownFields, none]), replacements?_list]
  rw [Content.body?, Content.fieldOr_of_mem distinct message,
    Content.fieldOr_of_mem distinct fileOffset, Content.fieldOr_of_mem distinct filePath,
    replacements, offset?_ofNumber]
  rfl

theorem readFinding_flat (f : Finding) :
    readFinding d (mapping (Export.finding .flat f)) = pure f := by
  have keys : ((fields (Export.finding .flat f)).map Prod.fst).Sublist
      ["DiagnosticName", "Message", "FileOffset", "FilePath", "Replacements"] :=
    (((Export.keys_withList _ _ _ _).cons_cons _).cons_cons _).cons_cons _
  have distinct := keys.nodup (by decide)
  have rule : ("DiagnosticName", (Value.quoted f.rule).node Nat) ∈
      fields (Export.finding .flat f) := List.mem_cons_self
  have flat : "DiagnosticMessage" ∉ (fields (Export.finding .flat f)).map Prod.fst :=
    fun member => absurd (keys.subset member) (by decide)
  rw [readFinding, readEntries_mapping, pure_bind]
  simp only [readContent_own, pure_bind, body?_ownFields, readField_of_mem distinct rule,
    readField_of_not_mem flat, Value.node, readText_scalar]
  rfl

theorem readFinding_mapping (layout : Export.Layout) (f : Finding) :
    readFinding d (mapping (Export.finding layout f)) = pure f := by
  cases layout with
  | flat => exact readFinding_flat d f
  | nested => exact readFinding_nested d f

theorem readFindings_root (main : String) (fs : List (Export.Layout × Finding))
    (root : d.root = mapping (Export.root main fs)) :
    readFindings d = pure (fs.map Prod.snd) := by
  have distinct : ((fields (Export.root main fs)).map Prod.fst).Nodup :=
    (Export.keys_withList _ _ _ _).nodup (by decide)
  have lists : Export.Lists (fields (Export.root main fs)) "Diagnostics"
      ((fs.map fun f => Export.finding f.1 f.2).map mapping) :=
    Export.lists_withList _ _ (by decide) _
  have each (f : Export.Layout × Finding) := readFinding_mapping d f.1 f.2
  rw [readFindings, root, readEntries_mapping, pure_bind]
  exact readField_lists d distinct each lists

/-! The export as a whole. -/

theorem ofBlock?_document {main : String} {fs : List (Export.Layout × Finding)}
    (inline : Yaml.Written.Inline (main :: fs.flatMap fun f => Export.texts f.2)) :
    ofBlock? (Export.root main fs).document = some (fs.map Prod.snd) := by
  obtain ⟨d, parsed, root⟩ := Yaml.Document.parse?_document (Export.root main fs)
    (Export.texts_root main fs ▸ inline)
  rw [ofBlock?, parsed]
  change (readFindings d).run' (d.size * 100) = _
  rw [readFindings_root d main fs root]
  rfl

/-- Exported findings are read back one by one, whatever the texts in them, whichever layout
each of them has, and whatever output stands before and behind the block. -/
theorem scan_export (main : String) (fs : List (Export.Layout × Finding))
    (inline : Yaml.Written.Inline (main :: fs.flatMap fun f => Export.texts f.2))
    (before after : List Char) (finished : Text.IsFinished before)
    (clear : ∀ line ∈ Text.wholeLines before, Block.isStart line = false)
    (ends : ∀ c ∈ after.head?, c = '\n') :
    scan (before ++ Export.text main fs ++ after) = fs.map Prod.snd := by
  have tidy := (Export.root main fs).tidy_document (Export.texts_root main fs ▸ inline)
  have whole : Text.IsFinished (Export.root main fs).document :=
    Text.isFinished_append_newline _
  have start := ((Export.root main fs).solid_text 0).append (Yaml.Written.newline 0)
  have inside : ∀ line ∈ Text.wholeLines (Export.root main fs).document,
      Block.isEnd line = false := fun line member =>
    Block.isEnd_of_head?_ne
      (Text.head?_of_mem_wholeLines start.head?_ne_dot tidy.undotted line member)
  rw [scan, Export.text, Block.locate?_delimited finished clear whole inside ends,
    Option.bind_some, ofBlock?_document inline, Option.getD_some]

theorem scan_export_layouts :
    scan ([" ---",
        "---",
        "MainSourceFile: 'a.cpp'",
        "Diagnostics:",
        "  - DiagnosticName: 'my-check'",
        "    Message: 'it''s bad'",
        "    FileOffset: 5",
        "    FilePath: ''",
        "  - DiagnosticName: 'use-nullptr'",
        "    DiagnosticMessage:",
        "      Message: 'use nullptr'",
        "      FilePath: '/p/a.cpp'",
        "      FileOffset: 9",
        "      Replacements:",
        "        - FilePath: '/p/a.cpp'",
        "          Offset: 9",
        "          Length: 1",
        "          ReplacementText: 'nullptr'",
        "...",
        "1 warning generated."].flatMap fun line => line.toList ++ ['\n']) =
      [⟨"my-check", "it's bad", 5, "", []⟩,
        ⟨"use-nullptr", "use nullptr", 9, "/p/a.cpp", [⟨"/p/a.cpp", 9, 1, "nullptr"⟩]⟩] := by
  have inline : Yaml.Written.Inline ["a.cpp", "my-check", "it's bad", "", "use-nullptr",
      "use nullptr", "/p/a.cpp", "/p/a.cpp", "nullptr"] := by decide
  have ends : ∀ c ∈ "\n1 warning generated.\n".toList.head?, c = '\n' := by
    rintro _ ⟨⟩
    rfl
  have read := scan_export "a.cpp"
    [(.flat, ⟨"my-check", "it's bad", 5, "", []⟩),
      (.nested, ⟨"use-nullptr", "use nullptr", 9, "/p/a.cpp", [⟨"/p/a.cpp", 9, 1, "nullptr"⟩]⟩)]
    inline " ---\n".toList "\n1 warning generated.\n".toList
    (Text.isFinished_append_newline [' ', '-', '-', '-']) (by decide) ends
  exact (congrArg scan (by decide +kernel)).trans read

end Finding

end LintReport
