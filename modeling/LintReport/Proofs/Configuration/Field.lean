import LintReport.Proofs.Configuration.Setting
import LintReport.Proofs.MapM
import Mathlib.Tactic.Choose

set_option autoImplicit false

/- The fields of a configuration, said without the settings that read them: the keys of each, the
values that it takes from a table, and the value that it has without one. The settings read just
these. -/
namespace LintReport

open Toml (Table)

namespace Configuration

/-- What a field holds. -/
inductive Kind where
  | text
  | texts
  | flag
  | seconds
  deriving DecidableEq

namespace Kind

def Content : Kind → Type
  | text => String
  | texts => List String
  | flag => Bool
  | seconds => Option UInt64

/-- What stands for a text: a text, and a date for what it prints as. -/
inductive Writes : Toml.Value → String → Prop
  | text (s : String) : Writes (.text s) s
  | date (printed : String) : Writes (.date printed) printed

/-- What a value says of a field of a kind. -/
inductive Means : (kind : Kind) → Toml.Value → kind.Content → Prop
  | text {v : Toml.Value} {s : String} (writes : Writes v s) : Means .text v s
  | texts {items : List Toml.Value} {ss : List String} (each : List.Forall₂ Writes items ss) :
      Means .texts (.array items) ss
  | flag (b : Bool) : Means .flag (.bool b) b
  | seconds (n : UInt64) : Means .seconds (.integer n.toNat) (some n)

end Kind

/-- The names of what a configuration holds. -/
inductive Field where
  | executable
  | systemIncludePath
  | lintLanguages
  | extraCompilerArgs
  | headerFilter
  | args
  | excludes
  | workspaceOnly
  | mergeStderr
  | timeoutSecs
  deriving DecidableEq

namespace Field

def all : List Field :=
  [executable, systemIncludePath, lintLanguages, extraCompilerArgs, headerFilter, args, excludes,
    workspaceOnly, mergeStderr, timeoutSecs]

theorem mem_all (field : Field) : field ∈ all := by
  cases field <;> decide

/-- The keys of a field: its name, and its alias if it has one. -/
def keys : Field → List String
  | executable => ["executable"]
  | systemIncludePath => ["system_include_path", "systemIncludePath"]
  | lintLanguages => ["lint_languages", "lintLanguages"]
  | extraCompilerArgs => ["extra_compiler_args", "extraCompilerArgs"]
  | headerFilter => ["header_filter", "headerFilter"]
  | args => ["args"]
  | excludes => ["excludes"]
  | workspaceOnly => ["workspace_only", "workspaceOnly"]
  | mergeStderr => ["merge_stderr", "mergeStderr"]
  | timeoutSecs => ["timeout_secs", "timeoutSecs"]

def kind : Field → Kind
  | executable | headerFilter => .text
  | systemIncludePath | lintLanguages | extraCompilerArgs | args | excludes => .texts
  | workspaceOnly | mergeStderr => .flag
  | timeoutSecs => .seconds

abbrev Content (field : Field) : Type := field.kind.Content

/-- The built-in value of a field. -/
def builtIn : (field : Field) → field.Content
  | executable => "clang-tidy"
  | headerFilter => ".*"
  | systemIncludePath | args | excludes => ([] : List String)
  | lintLanguages => ["c", "cpp"]
  | extraCompilerArgs => ["-Weverything"]
  | workspaceOnly | mergeStderr => false
  | timeoutSecs => (none : Option UInt64)

def of (c : Configuration) : (field : Field) → field.Content
  | executable => c.executable
  | systemIncludePath => c.systemIncludePath
  | lintLanguages => c.lintLanguages
  | extraCompilerArgs => c.extraCompilerArgs
  | headerFilter => c.headerFilter
  | args => c.args
  | excludes => c.excludes
  | workspaceOnly => c.workspaceOnly
  | mergeStderr => c.mergeStderr
  | timeoutSecs => c.timeoutSecs

/-- Whether a table has a value for a field, under any of its keys. -/
def SetIn (field : Field) (t : Table) : Prop := ∃ key ∈ field.keys, t.HasKey key

/-- A table has this value for a field. -/
def SetTo (field : Field) (t : Table) (x : field.Content) : Prop :=
  ∃ key ∈ field.keys, ∃ v, (key, v) ∈ t ∧ field.kind.Means v x

def MistypedIn (field : Field) (t : Table) : Prop :=
  ∃ key ∈ field.keys, ∃ v, (key, v) ∈ t ∧ ∀ x, ¬ field.kind.Means v x

def DoubledIn (field : Field) (t : Table) : Prop :=
  2 ≤ (t.filter fun e => field.keys.contains e.1).length

/-- The value of a field in the last of some tables that has one, else the built-in one. -/
inductive Latest (field : Field) (tables : List Table) : field.Content → Prop
  | set {before after : List Table} {t : Table} {x : field.Content}
      (split : tables = before ++ t :: after) (here : field.SetTo t x)
      (unset : ∀ later ∈ after, ¬ field.SetIn later) : Latest field tables x
  | unset (nowhere : ∀ t ∈ tables, ¬ field.SetIn t) : Latest field tables field.builtIn

/-! The settings of the fields. -/

def setting : (field : Field) → Setting field.Content
  | executable => executableSetting
  | systemIncludePath => systemIncludePathSetting
  | lintLanguages => lintLanguagesSetting
  | extraCompilerArgs => extraCompilerArgsSetting
  | headerFilter => headerFilterSetting
  | args => argsSetting
  | excludes => excludesSetting
  | workspaceOnly => workspaceOnlySetting
  | mergeStderr => mergeStderrSetting
  | timeoutSecs => timeoutSecsSetting

@[simp] theorem spellings_setting (field : Field) : field.setting.spellings = field.keys := by
  cases field <;> rfl

@[simp] theorem default_setting (field : Field) : field.setting.default = field.builtIn := by
  cases field <;> rfl

end Field

/-! What the readers take, once dates are texts. -/

namespace Kind

theorem text?_dateText_iff (v : Toml.Value) (s : String) :
    Setting.text? v.dateText = some s ↔ Writes v s := by
  constructor
  · intro read
    cases v with
    | text t => exact Option.some.inj read ▸ .text t
    | date printed => exact Option.some.inj read ▸ .date printed
    | _ => cases read
  · rintro (_ | _) <;> rfl

theorem text?_iff (v : Toml.Value) (s : String) :
    Setting.text? v.withDateTexts = some s ↔ Means .text v s := by
  have same : Setting.text? v.withDateTexts = Setting.text? v.dateText := by cases v <;> rfl
  rw [same, text?_dateText_iff]
  constructor
  · exact .text
  · rintro ⟨writes⟩
    exact writes

theorem texts?_iff (v : Toml.Value) (ss : List String) :
    Setting.texts? v.withDateTexts = some ss ↔ Means .texts v ss := by
  cases v with
  | array items =>
      have read : Setting.texts? (.array (items.map Toml.Value.dateText)) = some ss ↔
          List.Forall₂ Writes items ss := by
        rw [Setting.texts?, mapM_eq_some_iff, List.forall₂_map_left_iff]
        simp only [text?_dateText_iff]
      refine read.trans ⟨.texts, ?_⟩
      rintro ⟨⟩
      assumption
  | _ => exact iff_of_false (by rintro ⟨⟩) (by rintro ⟨⟩)

theorem flag?_iff (v : Toml.Value) (b : Bool) :
    Setting.flag? v.withDateTexts = some b ↔ Means .flag v b := by
  constructor
  · intro read
    cases v with
    | bool c => exact Option.some.inj read ▸ .flag c
    | _ => cases read
  · rintro ⟨⟩
    rfl

theorem seconds?_iff (v : Toml.Value) (n : Option UInt64) :
    Setting.seconds? v.withDateTexts = some n ↔ Means .seconds v n := by
  constructor
  · intro read
    cases v with
    | integer m =>
        obtain ⟨⟨natural, small⟩, same⟩ := Option.ite_none_right_eq_some.mp read
        obtain rfl := Option.some.inj same
        obtain ⟨m, rfl⟩ := Int.eq_ofNat_of_zero_le natural
        have back : m.toUInt64.toNat = m := by
          rw [Nat.toUInt64_eq, UInt64.toNat_ofNat_of_lt' (by exact_mod_cast small)]
        have means := Means.seconds m.toUInt64
        rwa [back] at means
    | _ => cases read
  · intro means
    cases means with
    | seconds m =>
        have small : (m.toNat : Int) < UInt64.size := by exact_mod_cast m.toNat_lt_size
        rw [Toml.Value.withDateTexts, Toml.Value.dateText, Setting.seconds?,
          if_pos ⟨Int.natCast_nonneg _, small⟩, Int.toNat_natCast, Nat.toUInt64_eq,
          UInt64.ofNat_toNat]
        · rintro _ ⟨⟩
        · rintro _ ⟨⟩

end Kind

namespace Field

/-- A setting reads what the values of its field mean. -/
theorem read_setting_iff (field : Field) (v : Toml.Value) (x : field.Content) :
    field.setting.read v.withDateTexts = some x ↔ field.kind.Means v x := by
  cases field with
  | executable | headerFilter => exact Kind.text?_iff v x
  | systemIncludePath | lintLanguages | extraCompilerArgs | args | excludes =>
      exact Kind.texts?_iff v x
  | workspaceOnly | mergeStderr => exact Kind.flag?_iff v x
  | timeoutSecs => exact Kind.seconds?_iff v x

theorem entriesIn_withDateTexts (field : Field) (t : Table) :
    field.setting.entriesIn t.withDateTexts =
      (t.filter fun e => field.keys.contains e.1).map fun e => (e.1, e.2.withDateTexts) := by
  rw [Setting.entriesIn, Table.withDateTexts, List.filter_map, spellings_setting]
  rfl

theorem hasKey_withDateTexts (t : Table) (key : String) :
    t.withDateTexts.HasKey key ↔ t.HasKey key := by
  simp [Table.HasKey, Table.withDateTexts]

theorem setIn_iff (field : Field) (t : Table) :
    field.SetIn t ↔ field.setting.entriesIn t.withDateTexts ≠ [] := by
  rw [entriesIn_withDateTexts, ne_eq, List.map_eq_nil_iff, List.filter_eq_nil_iff]
  simp only [List.contains_iff_mem, not_forall, not_not, exists_prop]
  constructor
  · rintro ⟨_, named, e, member, rfl⟩
    exact ⟨e, member, named⟩
  · rintro ⟨e, member, named⟩
    exact ⟨e.1, named, e, member, rfl⟩

theorem get?_eq_none_iff (field : Field) (t : Table) :
    field.setting.get? t.withDateTexts = none ↔ field.DoubledIn t ∨ field.MistypedIn t := by
  rw [Setting.get?_eq_none_iff, entriesIn_withDateTexts, List.length_map, DoubledIn]
  refine or_congr_right ?_
  simp only [Table.withDateTexts, List.mem_map, MistypedIn, spellings_setting,
    Option.eq_none_iff_forall_ne_some, ne_eq]
  constructor
  · rintro ⟨_, ⟨e, member, rfl⟩, named, refused⟩
    exact ⟨e.1, named, e.2, member,
      fun x means => refused x ((field.read_setting_iff e.2 x).mpr means)⟩
  · rintro ⟨key, named, v, member, refused⟩
    exact ⟨_, ⟨(key, v), member, rfl⟩, named,
      fun x read => refused x ((field.read_setting_iff v x).mp read)⟩

theorem setTo_of_value? {field : Field} {t : Table} {x : field.Content}
    (value : field.setting.value? t.withDateTexts = some x) : field.SetTo t x := by
  unfold Setting.value? at value
  split at value
  · next e one =>
      rw [entriesIn_withDateTexts] at one
      obtain ⟨d, kept, rfl⟩ := List.map_eq_singleton_iff.mp one
      have among : d ∈ t.filter fun e => field.keys.contains e.1 := kept ▸ List.mem_singleton_self d
      obtain ⟨member, named⟩ := List.mem_filter.mp among
      exact ⟨d.1, List.contains_iff_mem.mp named, d.2, member,
        (field.read_setting_iff d.2 x).mp value⟩
  · cases value

theorem not_setIn_of_value? {field : Field} {t : Table}
    (valid : field.setting.get? t.withDateTexts ≠ none)
    (absent : field.setting.value? t.withDateTexts = none) : ¬ field.SetIn t := by
  rw [setIn_iff, not_not]
  unfold Setting.get? at valid
  unfold Setting.value? at absent
  split at valid
  · next none => exact none
  · next e one =>
      rw [one] at absent
      exact absurd absent valid
  · exact absurd rfl valid

theorem Latest.append_of_not_setIn {field : Field} {tables : List Table} {x : field.Content}
    (latest : field.Latest tables x) {t : Table} (unset : ¬ field.SetIn t) :
    field.Latest (tables ++ [t]) x := by
  cases latest with
  | @set before after t' _ split here unset' =>
      have split' : tables ++ [t] = before ++ t' :: (after ++ [t]) := by simp [split]
      refine .set split' here (List.forall_mem_append.mpr ⟨unset', ?_⟩)
      exact List.forall_mem_singleton.mpr unset
  | unset nowhere =>
      exact .unset (List.forall_mem_append.mpr ⟨nowhere, List.forall_mem_singleton.mpr unset⟩)

/-- A field has the value that its setting has in the last table, whatever lies below. -/
theorem latest_setting (field : Field) {tables : List Table}
    (valid : ∀ t ∈ tables, field.setting.get? t.withDateTexts ≠ none) :
    field.Latest tables (field.setting.latest (tables.map Table.withDateTexts)) := by
  induction tables using List.reverseRecOn with
  | nil =>
      have builtIn : field.setting.latest [] = field.builtIn := field.default_setting
      exact builtIn ▸ .unset (List.forall_mem_nil _)
  | append_singleton tables t ih =>
      have before := ih fun t' member => valid t' (List.mem_append_left _ member)
      have here := valid t (List.mem_append_right _ List.mem_cons_self)
      rw [List.map_append, List.map_singleton]
      cases value : field.setting.value? t.withDateTexts with
      | some x =>
          rw [field.setting.latest_append_of_some _ value]
          exact .set rfl (setTo_of_value? value) (List.forall_mem_nil _)
      | none =>
          have unset := not_setIn_of_value? here value
          rw [field.setting.latest_append_of_none _ value]
          exact before.append_of_not_setIn unset

end Field

end Configuration

end LintReport
