import LintReport.Proofs.Configuration.Layers

set_option autoImplicit false

/- The configuration of a single document, by way of the layers and straight from the text. A
layer keeps its integers as signed words, and the text is read with wider ones; a layer takes a
date for a text, and the text is read without. So the two agree on every document whose integers
are all signed words and in which no date stands for a text. -/
namespace LintReport

namespace Toml

/-- The integers that stand somewhere in a value. -/
inductive Value.Holds (n : Int) : Value → Prop
  | here : Holds n (.integer n)
  | item {items : List Value} {v : Value} (member : v ∈ items) (inside : Holds n v) :
      Holds n (.array items)
  | entry {entries : Table} {e : String × Value} (member : e ∈ entries)
      (inside : Holds n e.2) : Holds n (.table entries)

/-- A signed word of 64 bits. -/
def IsWord (n : Int) : Prop := -0x8000000000000000 ≤ n ∧ n < 0x8000000000000000

/-- An integer that stands somewhere in a document. -/
def Mentions (text : List Char) (n : Int) : Prop :=
  ∃ table, parse? text = some table ∧ (Value.table table).Holds n

namespace Value

theorem isWord_iff (n : Int) : isWord n = true ↔ IsWord n := by
  rw [isWord, Bool.and_eq_true, decide_eq_true_iff, decide_eq_true_iff]
  rfl

theorem isPortable_array (items : List Value) :
    (array items).isPortable = true ↔ ∀ v ∈ items, v.isPortable = true := by
  rw [isPortable, arePortable_eq_all, List.all_eq_true]

theorem isPortable_table (entries : Table) :
    (table entries).isPortable = true ↔ ∀ e ∈ entries, e.2.isPortable = true := by
  rw [isPortable, areEntriesPortable_eq_all, List.all_eq_true]

/-- No integer in a portable value is too wide, at any depth. -/
theorem isWord_of_holds {v : Value} {n : Int} (inside : v.Holds n)
    (portable : v.isPortable = true) : IsWord n := by
  induction inside with
  | here => exact (isWord_iff n).mp portable
  | item member _ ih => exact ih ((isPortable_array _).mp portable _ member)
  | entry member _ ih => exact ih ((isPortable_table _).mp portable _ member)

theorem isPortable_of_words (v : Value) (words : ∀ n, v.Holds n → IsWord n) :
    v.isPortable = true := by
  match v, words with
  | .integer n, words => exact (isWord_iff n).mpr (words n .here)
  | .array items, words =>
      refine (isPortable_array items).mpr fun v member => ?_
      exact isPortable_of_words v fun n inside => words n (.item member inside)
  | .table entries, words =>
      refine (isPortable_table entries).mpr fun e member => ?_
      exact isPortable_of_words e.2 fun n inside => words n (.entry member inside)
  | .text _, _ | .float _, _ | .bool _, _ | .date _, _ => rfl
termination_by sizeOf v
decreasing_by
  · have smaller := List.sizeOf_lt_of_mem member
    simp only [array.sizeOf_spec]
    omega
  · have smaller := List.sizeOf_lt_of_mem member
    have part : sizeOf e.2 < sizeOf e := by
      obtain ⟨key, value⟩ := e
      simp only [Prod.mk.sizeOf_spec]
      omega
    simp only [table.sizeOf_spec]
    omega

end Value

theorem layer?_eq_parse? {text : List Char}
    (words : ∀ n, Mentions text n → IsWord n) : layer? text = parse? text := by
  cases parsed : parse? text with
  | none => rw [layer?, parsed, Option.filter_none]
  | some table =>
      have portable : (Value.table table).isPortable = true :=
        Value.isPortable_of_words _ fun n inside => words n ⟨table, parsed, inside⟩
      rw [layer?, parsed, Option.filter_some, if_pos portable]

theorem layer?_of_wide {text : List Char} {n : Int} (mentioned : Mentions text n)
    (wide : ¬ IsWord n) : layer? text = none := by
  obtain ⟨table, parsed, inside⟩ := mentioned
  refine Option.eq_none_iff_forall_ne_some.mpr fun table' given => ?_
  obtain ⟨parsed', portable⟩ := Option.filter_eq_some_iff.mp given
  obtain rfl : table = table' := by simpa [parsed] using parsed'
  exact wide (Value.isWord_of_holds inside portable)

end Toml

namespace Configuration

/-- A date where a field holds texts. -/
inductive Kind.Dated : Kind → Toml.Value → Prop
  | text (printed : String) : Dated .text (.date printed)
  | texts {items : List Toml.Value} {printed : String} (member : .date printed ∈ items) :
      Dated .texts (.array items)

/-- A document in which a date stands for a text. -/
def Dated (text : List Char) : Prop :=
  ∃ table, Toml.parse? text = some table ∧
    ∃ field : Field, ∃ key ∈ field.keys, ∃ v, (key, v) ∈ table ∧ field.kind.Dated v

namespace Field

theorem read_withDateTexts (field : Field) {v : Toml.Value} (undated : ¬ field.kind.Dated v) :
    field.setting.read v.withDateTexts = field.setting.read v := by
  cases v with
  | date printed =>
      cases field with
      | executable | headerFilter => exact absurd (.text printed) undated
      | _ => rfl
  | array items =>
      have same (texts : field.kind = .texts) : items.map Toml.Value.dateText = items := by
        have each : ∀ v ∈ items, v.dateText = v := by
          intro v member
          cases v with
          | date printed =>
              rw [texts] at undated
              exact absurd (.texts member) undated
          | _ => rfl
        exact (List.map_congr_left each).trans (List.map_id' items)
      cases field with
      | systemIncludePath | lintLanguages | extraCompilerArgs | args | excludes =>
          exact congrArg (fun items => Setting.texts? (.array items)) (same rfl)
      | _ => rfl
  | _ => rfl

theorem read_of_dated (field : Field) {v : Toml.Value} (dated : field.kind.Dated v) :
    field.setting.read v = none := by
  generalize kind : field.kind = k at dated
  cases dated with
  | text printed => cases field <;> rfl
  | texts member =>
      have none : Setting.texts? (.array _) = none := mapM_eq_none_iff.mpr ⟨_, member, rfl⟩
      cases field <;> first | exact none | cases kind

theorem get?_withDateTexts (field : Field) {t : Toml.Table}
    (undated : ∀ key ∈ field.keys, ∀ v, (key, v) ∈ t → ¬ field.kind.Dated v) :
    field.setting.get? t.withDateTexts = field.setting.get? t := by
  have plain : ∀ e ∈ field.setting.entriesIn t,
      field.setting.read e.2.withDateTexts = field.setting.read e.2 := by
    intro e member
    obtain ⟨inTable, named⟩ := (field.setting.mem_entriesIn t e).mp member
    rw [spellings_setting] at named
    exact field.read_withDateTexts (undated e.1 named e.2 inTable)
  have entries : field.setting.entriesIn t.withDateTexts =
      (field.setting.entriesIn t).map fun e => (e.1, e.2.withDateTexts) := by
    rw [entriesIn_withDateTexts, Setting.entriesIn, spellings_setting]
  rw [Setting.get?, Setting.get?, entries]
  rcases here : field.setting.entriesIn t with _ | ⟨e, _ | ⟨_, _⟩⟩
  · rfl
  · exact plain e (here ▸ List.mem_cons_self)
  · rfl

end Field

theorem ofTable?_congr {t t' : Toml.Table}
    (same : ∀ field : Field, field.setting.get? t = field.setting.get? t') :
    ofTable? t = ofTable? t' := by
  ext c
  rw [ofTable?_eq_some_iff, ofTable?_eq_some_iff]
  simp only [same]

theorem ofTable?_withDateTexts {text : List Char} {t : Toml.Table}
    (parsed : Toml.parse? text = some t) (undated : ¬ Dated text) :
    ofTable? t.withDateTexts = ofTable? t :=
  ofTable?_congr fun field => field.get?_withDateTexts fun key named v member dated =>
    undated ⟨t, parsed, field, key, named, v, member, dated⟩

/-- The configuration that the text of a file describes, its values read as they are written. -/
def ofText (path : Path) (text : List Char) : Except ConfigurationError Configuration :=
  match parse? text with
  | some c => .ok c
  | none => .error (.malformed path)

theorem ofText_error {path : Path} {text : List Char} {e : ConfigurationError}
    (refused : ofText path text = .error e) : e = .malformed path := by
  unfold ofText at refused
  split at refused
  · cases refused
  · exact (Except.error.inj refused).symm

theorem ofText_of_dated {text : List Char} (dated : Dated text) (path : Path) :
    ofText path text = .error (.malformed path) := by
  obtain ⟨t, parsed, field, key, named, v, member, dated⟩ := dated
  have refused : field.setting.get? t = none := by
    rw [← Field.spellings_setting] at named
    exact (field.setting.get?_eq_none_iff t).mpr
      (Or.inr ⟨_, member, named, field.read_of_dated dated⟩)
  have none : parse? text = none := by
    rw [parse?, parsed, Option.bind_some]
    exact (ofTable?_eq_none_iff t).mpr ⟨field, refused⟩
  rw [ofText, none]

end Configuration

namespace LayerFile

/-- The table of a file that is there: a layer, if it describes a configuration. -/
theorem table_eq {f : LayerFile} {text : List Char} (read : f.content = .ok text) :
    f.table =
      match (Toml.layer? text).filter fun t => (Configuration.ofTable? t.withDateTexts).isSome with
      | some t => .ok t.withDateTexts
      | none => .error (.malformed f.path) := by
  rw [table, read, Toml.layer?, Option.filter_filter]
  cases parsed : Toml.parse? text with
  | none => simp only [Option.filter_none, parsed]
  | some t =>
      simp only [Option.filter_some, parsed]
      split <;> rfl

end LayerFile

namespace Layers

/-- Files that cannot be read leave the layers as they are. -/
theorem foldl_unread {files : List LayerFile} (l : Layers)
    (unread : ∀ f ∈ files, ∃ reason, f.content = .error reason) :
    files.foldl addOptional l = l := by
  induction files with
  | nil => rfl
  | cons f files ih =>
      obtain ⟨⟨reason, failed⟩, unread⟩ := List.forall_mem_cons.mp unread
      have skipped : l.addOptional f = l := by rw [addOptional, LayerFile.table, failed]
      rw [List.foldl_cons, skipped]
      exact ih unread

@[simp] theorem add_empty (path : Path) (table : Toml.Table) :
    empty.add path table = ⟨table, path⟩ := by
  simp [add, empty, Toml.Table.overlay]

end Layers

namespace Configuration

/-- A table is checked when its file is read and once more under the layers. When there is one
layer, the second look finds what the first one found. -/
theorem ofFiles_alone {implicit : List LayerFile} {f : LayerFile} {text : List Char}
    (read : f.content = .ok text)
    (unread : ∀ f ∈ implicit, ∃ reason, f.content = .error reason) :
    ofFiles implicit (some f) =
      match (Toml.layer? text).bind fun t => ofTable? t.withDateTexts with
      | some c => .ok c
      | none => .error (.malformed f.path) := by
  simp only [ofFiles, Layers.foldl_unread _ unread, Layers.addRequired, LayerFile.table_eq read]
  cases Toml.layer? text with
  | none => rfl
  | some t =>
      rw [Option.filter_some, Option.bind_some]
      cases described : ofTable? t.withDateTexts with
      | none => rfl
      | some c =>
          simp only [Option.isSome_some, if_true, Except.map, Except.bind, Layers.add_empty]
          rw [ofLayers, described]

/-- A document that is the only layer has the configuration that its text has, when all integers
in it, those of unknown keys too, are signed words of 64 bits, and no date stands for a text. With
an integer that is none it is refused; with such a date its text is. A document that is refused
either way is malformed, and the error names its file. -/
theorem load_alone (disk : Disk) (home : Path) (workspace : Option Path) (path : Path)
    (text : List Char) (read : disk.readText path = .ok text)
    (unread : ∀ p ∈ userFile home :: (workspace.map fun w => w.child projectFile).toList,
      ∃ reason, disk.readText p = .error reason) :
    let loaded := load disk home workspace (some path)
    ((∀ n, Toml.Mentions text n → Toml.IsWord n) → ¬ Dated text → loaded = ofText path text) ∧
      ((∃ n, Toml.Mentions text n ∧ ¬ Toml.IsWord n) → loaded = .error (.malformed path)) ∧
      (Dated text → ofText path text = .error (.malformed path)) ∧
      (∀ e, loaded = .error e → e = .malformed path) ∧
      ∀ e, ofText path text = .error e → e = .malformed path := by
  intro loaded
  have layered : loaded =
      match (Toml.layer? text).bind fun t => ofTable? t.withDateTexts with
      | some c => .ok c
      | none => .error (.malformed path) := by
    refine ofFiles_alone read fun f member => ?_
    obtain ⟨p, listed, rfl⟩ := List.mem_map.mp member
    exact unread p listed
  refine ⟨fun words undated => ?_, ?_, fun dated => ofText_of_dated dated path,
    fun e refused => ?_, fun e refused => ofText_error refused⟩
  · have same : ((Toml.parse? text).bind fun t => ofTable? t.withDateTexts) = parse? text := by
      cases parsed : Toml.parse? text with
      | none => rw [parse?, parsed]; rfl
      | some t => rw [parse?, parsed, Option.bind_some, ofTable?_withDateTexts parsed undated]; rfl
    rw [layered, Toml.layer?_eq_parse? words, same]
    rfl
  · rintro ⟨n, mentioned, wide⟩
    rw [layered, Toml.layer?_of_wide mentioned wide]
    rfl
  · rw [layered] at refused
    split at refused
    · cases refused
    · exact (Except.error.inj refused).symm

/-- The widest integers that a layer keeps, in a setting and deep below a key that is none. -/
theorem load_alone_widest :
    let text := ("timeoutSecs = 9223372036854775807\nheaderFilter = 'x'\n" ++
      "[other]\nlist = [\x7b n = -9223372036854775808 \x7d, 1.5]").toList
    let disk : Disk := ⟨.directory [("f.toml", .file (Utf8.encode text) false)], ⟨"/"⟩⟩
    let path : Path := ⟨"/f.toml"⟩
    let loaded := load disk ⟨"/h"⟩ (some ⟨"/w"⟩) (some path)
    ¬ Dated text ∧ loaded = ofText path text ∧ loaded = .ok
      { default with headerFilter := "x", timeoutSecs := some 9223372036854775807 } := by
  intro text disk path loaded
  have read : disk.readText path = .ok text := by decide +kernel
  have unread : ∀ p ∈ [userFile ⟨"/h"⟩, (⟨"/w"⟩ : Path).child projectFile],
      ∃ reason, disk.readText p = .error reason := by
    have missing : ∀ p ∈ [userFile ⟨"/h"⟩, (⟨"/w"⟩ : Path).child projectFile],
        disk.readText p = .error .notFound := by decide +kernel
    exact fun p listed => ⟨_, missing p listed⟩
  have kept : Toml.layer? text ≠ none := by decide +kernel
  have direct : ofText path text = .ok
      { default with headerFilter := "x", timeoutSecs := some 9223372036854775807 } := by
    decide +kernel
  have undated : ¬ Dated text := by
    intro dated
    rw [ofText_of_dated dated path] at direct
    cases direct
  have words : ∀ n, Toml.Mentions text n → Toml.IsWord n := by
    intro n mentioned
    by_contra wide
    exact kept (Toml.layer?_of_wide mentioned wide)
  have same : loaded = ofText path text :=
    (load_alone disk ⟨"/h"⟩ (some ⟨"/w"⟩) path text read unread).1 words undated
  exact ⟨undated, same, same.trans direct⟩

/-- The text of a file sets a number of seconds that fits the field, and the file is refused. -/
theorem load_wide_timeout :
    let text := "timeout_secs = 9223372036854775808".toList
    let disk : Disk := ⟨.directory [("f.toml", .file (Utf8.encode text) false)], ⟨"/"⟩⟩
    let path : Path := ⟨"/f.toml"⟩
    disk.readText path = .ok text ∧ disk.readText (userFile ⟨"/h"⟩) = .error .notFound ∧
      ofText path text = .ok { default with timeoutSecs := some 9223372036854775808 } ∧
      load disk ⟨"/h"⟩ none (some path) = .error (.malformed path) := by
  decide +kernel

/-- A layer takes a date for the text that it prints as. -/
example :
    let text := "executable = 1979-05-27".toList
    let disk : Disk := ⟨.directory [("f.toml", .file (Utf8.encode text) false)], ⟨"/"⟩⟩
    let path : Path := ⟨"/f.toml"⟩
    load disk ⟨"/h"⟩ none (some path) = .ok { default with executable := "1979-05-27" } ∧
      ofText path text = .error (.malformed path) := by
  decide +kernel

end Configuration

end LintReport
