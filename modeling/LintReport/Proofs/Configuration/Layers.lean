import LintReport.Configuration.Layers
import LintReport.Proofs.Configuration.Field

set_option autoImplicit false

/- What the layers of a configuration come to. A layer counts when it is a configuration by
itself; of those that count the last one with a setting decides, and only two spellings of one
setting in two of them are a fault that none of them has alone. -/
namespace LintReport

open Toml (Table)

namespace Configuration

/-- A table describes a configuration when it describes each of its fields. -/
theorem ofTable?_eq_some_iff (t : Table) (c : Configuration) :
    ofTable? t = some c ↔ ∀ field : Field, field.setting.get? t = some (field.of c) := by
  constructor
  · intro described
    simp only [ofTable?, Option.bind_eq_bind, Option.bind_eq_some_iff, Option.some.injEq]
      at described
    obtain ⟨_, executable, _, systemIncludePath, _, lintLanguages, _, extraCompilerArgs, _,
      headerFilter, _, args, _, excludes, _, workspaceOnly, _, mergeStderr, _, timeoutSecs,
      rfl⟩ := described
    intro field
    cases field
    · exact executable
    · exact systemIncludePath
    · exact lintLanguages
    · exact extraCompilerArgs
    · exact headerFilter
    · exact args
    · exact excludes
    · exact workspaceOnly
    · exact mergeStderr
    · exact timeoutSecs
  · intro each
    have executable : executableSetting.get? t = some c.executable := each .executable
    have systemIncludePath : systemIncludePathSetting.get? t = some c.systemIncludePath :=
      each .systemIncludePath
    have lintLanguages : lintLanguagesSetting.get? t = some c.lintLanguages := each .lintLanguages
    have extraCompilerArgs : extraCompilerArgsSetting.get? t = some c.extraCompilerArgs :=
      each .extraCompilerArgs
    have headerFilter : headerFilterSetting.get? t = some c.headerFilter := each .headerFilter
    have args : argsSetting.get? t = some c.args := each .args
    have excludes : excludesSetting.get? t = some c.excludes := each .excludes
    have workspaceOnly : workspaceOnlySetting.get? t = some c.workspaceOnly := each .workspaceOnly
    have mergeStderr : mergeStderrSetting.get? t = some c.mergeStderr := each .mergeStderr
    have timeoutSecs : timeoutSecsSetting.get? t = some c.timeoutSecs := each .timeoutSecs
    simp only [ofTable?, executable, systemIncludePath, lintLanguages, extraCompilerArgs,
      headerFilter, args, excludes, workspaceOnly, mergeStderr, timeoutSecs,
      Option.bind_eq_bind, Option.bind_some]

theorem exists_of_get? {t : Table} (valid : ∀ field : Field, field.setting.get? t ≠ none) :
    ∃ c, ofTable? t = some c := by
  have each := fun field => Option.ne_none_iff_exists'.mp (valid field)
  choose value given using each
  let c : Configuration :=
    { executable := value .executable
      systemIncludePath := value .systemIncludePath
      lintLanguages := value .lintLanguages
      extraCompilerArgs := value .extraCompilerArgs
      headerFilter := value .headerFilter
      args := value .args
      excludes := value .excludes
      workspaceOnly := value .workspaceOnly
      mergeStderr := value .mergeStderr
      timeoutSecs := value .timeoutSecs }
  refine ⟨c, (ofTable?_eq_some_iff t c).mpr fun field => ?_⟩
  rw [given field]
  cases field <;> rfl

theorem ofTable?_eq_none_iff (t : Table) :
    ofTable? t = none ↔ ∃ field : Field, field.setting.get? t = none := by
  constructor
  · intro refused
    by_contra all
    obtain ⟨c, described⟩ := exists_of_get? fun field missing => all ⟨field, missing⟩
    simp [refused] at described
  · rintro ⟨field, missing⟩
    refine Option.eq_none_iff_forall_ne_some.mpr fun c described => ?_
    rw [(ofTable?_eq_some_iff t c).mp described field] at missing
    exact absurd missing (by simp)

end Configuration

open LintReport.Configuration (Field)

/-- The table of a document. Integers of more than 64 bits are none. -/
def Toml.layer? (text : List Char) : Option Table :=
  (Toml.parse? text).filter fun table => (Toml.Value.table table).isPortable

namespace LayerFile

/-- Why a file is no layer. -/
inductive Fault (f : LayerFile) : ConfigurationError → Prop
  | unreadable {reason : DiskError} (failed : f.content = .error reason) :
      Fault f (.unreadable f.path reason)
  | noToml {text : List Char} (read : f.content = .ok text) (refused : Toml.layer? text = none) :
      Fault f (.malformed f.path)
  | mistyped {text : List Char} {table : Table} (read : f.content = .ok text)
      (parsed : Toml.layer? text = some table) (field : Field) (wrong : field.MistypedIn table) :
      Fault f (.malformed f.path)
  | doubled {text : List Char} {table : Table} (read : f.content = .ok text)
      (parsed : Toml.layer? text = some table) (field : Field) (twice : field.DoubledIn table) :
      Fault f (.malformed f.path)

/-- The table in a file, if each field in it is all right. -/
def layer? (f : LayerFile) : Option Table :=
  (f.content.toOption.bind Toml.layer?).filter fun table =>
    Field.all.all fun field => (field.setting.get? table.withDateTexts).isSome

theorem layer?_eq_some_iff (f : LayerFile) (t : Table) : f.layer? = some t ↔
    (∃ text, f.content = .ok text ∧ Toml.layer? text = some t) ∧
      ∀ field : Field, field.setting.get? t.withDateTexts ≠ none := by
  unfold layer?
  rw [Option.filter_eq_some_iff, Option.bind_eq_some_iff, List.all_eq_true]
  refine and_congr ?_ ?_
  · cases f.content <;> simp [Except.toOption]
  · simp [Field.mem_all, Option.isSome_iff_ne_none]

theorem table_of_layer? {f : LayerFile} {t : Table} (given : f.layer? = some t) :
    f.table = .ok t.withDateTexts := by
  obtain ⟨⟨text, read, parsed⟩, valid⟩ := (layer?_eq_some_iff f t).mp given
  obtain ⟨parsed, portable⟩ := Option.filter_eq_some_iff.mp parsed
  obtain ⟨c, described⟩ := Configuration.exists_of_get? valid
  rw [table, read]
  simp only [parsed, portable, described, Option.isSome_some, Bool.and_self, if_true]

theorem table_of_read {f : LayerFile} {text : List Char} (read : f.content = .ok text)
    (nothing : f.layer? = none) : f.table = .error (.malformed f.path) := by
  rw [table, read]
  dsimp only
  split
  · rfl
  · next t parsed =>
      refine if_neg fun right => ?_
      obtain ⟨portable, described⟩ := Bool.and_eq_true_iff.mp right
      obtain ⟨c, described⟩ := Option.isSome_iff_exists.mp described
      have given : f.layer? = some t := by
        refine (layer?_eq_some_iff f t).mpr ⟨⟨text, read, ?_⟩, fun field => ?_⟩
        · exact Option.filter_eq_some_iff.mpr ⟨parsed, portable⟩
        · rw [(Configuration.ofTable?_eq_some_iff _ c).mp described field]
          simp
      simp [nothing] at given

theorem layer?_of_get? {f : LayerFile} {text : List Char} {t : Table}
    (read : f.content = .ok text) (parsed : Toml.layer? text = some t) (field : Field)
    (refused : field.setting.get? t.withDateTexts = none) : f.layer? = none := by
  refine Option.eq_none_iff_forall_ne_some.mpr fun t' given => ?_
  obtain ⟨⟨text', read', parsed'⟩, valid⟩ := (layer?_eq_some_iff f t').mp given
  obtain rfl : text = text' := by simpa [read] using read'
  obtain rfl : t = t' := by simpa [parsed] using parsed'
  exact valid field refused

theorem table_of_fault {f : LayerFile} {e : ConfigurationError} (fault : f.Fault e) :
    f.table = .error e := by
  cases fault with
  | unreadable failed => rw [table, failed]
  | noToml read refused =>
      refine table_of_read read (Option.eq_none_iff_forall_ne_some.mpr fun t given => ?_)
      obtain ⟨⟨text', read', parsed⟩, _⟩ := (layer?_eq_some_iff f t).mp given
      obtain rfl : _ = text' := by simpa [read] using read'
      simp [refused] at parsed
  | mistyped read parsed field wrong =>
      exact table_of_read read
        (layer?_of_get? read parsed field ((field.get?_eq_none_iff _).mpr (Or.inr wrong)))
  | doubled read parsed field twice =>
      exact table_of_read read
        (layer?_of_get? read parsed field ((field.get?_eq_none_iff _).mpr (Or.inl twice)))

/-- A file without a layer has a fault, and one that has a fault is no layer. -/
theorem layer?_eq_none_iff (f : LayerFile) : f.layer? = none ↔ ∃ e, f.Fault e := by
  constructor
  · intro nothing
    cases read : f.content with
    | error reason => exact ⟨_, .unreadable read⟩
    | ok text =>
        cases parsed : Toml.layer? text with
        | none => exact ⟨_, .noToml read parsed⟩
        | some t =>
            have bad : ∃ field : Field, field.setting.get? t.withDateTexts = none := by
              by_contra all
              have given := (layer?_eq_some_iff f t).mpr
                ⟨⟨text, read, parsed⟩, fun field refused => all ⟨field, refused⟩⟩
              simp [nothing] at given
            obtain ⟨field, refused⟩ := bad
            rcases (field.get?_eq_none_iff t).mp refused with twice | wrong
            · exact ⟨_, .doubled read parsed field twice⟩
            · exact ⟨_, .mistyped read parsed field wrong⟩
  · rintro ⟨e, fault⟩
    refine Option.eq_none_iff_forall_ne_some.mpr fun t given => ?_
    have failed := table_of_fault fault
    rw [table_of_layer? given] at failed
    exact absurd failed (by simp)

/-- What some files have to say: the tables of those without a fault, each with its path. -/
inductive Yield : List LayerFile → List (Path × Table) → Prop
  | nil : Yield [] []
  | fault {f : LayerFile} {files : List LayerFile} {layers : List (Path × Table)}
      {e : ConfigurationError} (fault : f.Fault e) (others : Yield files layers) :
      Yield (f :: files) layers
  | layer {f : LayerFile} {files : List LayerFile} {layers : List (Path × Table)}
      {text : List Char} {t : Table} (read : f.content = .ok text)
      (parsed : Toml.layer? text = some t) (sound : ∀ e, ¬ f.Fault e)
      (others : Yield files layers) : Yield (f :: files) ((f.path, t) :: layers)

def layersOf (files : List LayerFile) : List (Path × Table) :=
  files.filterMap fun f => f.layer?.map fun t => (f.path, t)

theorem yield_layersOf (files : List LayerFile) : Yield files (layersOf files) := by
  induction files with
  | nil => exact .nil
  | cons f files ih =>
      unfold layersOf
      cases given : f.layer? with
      | none =>
          obtain ⟨e, fault⟩ := f.layer?_eq_none_iff.mp given
          rw [List.filterMap_cons_none (by rw [given]; rfl)]
          exact .fault fault ih
      | some t =>
          obtain ⟨⟨text, read, parsed⟩, _⟩ := (f.layer?_eq_some_iff t).mp given
          have sound (e : ConfigurationError) (fault : f.Fault e) : False := by
            rw [f.layer?_eq_none_iff.mpr ⟨e, fault⟩] at given
            cases given
          rw [List.filterMap_cons_some (by rw [given]; rfl)]
          exact .layer read parsed sound ih

end LayerFile

open LayerFile (layersOf)

namespace Layers

/-- A file changes the layers by what it has to say. -/
theorem addOptional_eq (l : Layers) (f : LayerFile) : l.addOptional f =
    match f.layer? with
    | some t => l.add f.path t.withDateTexts
    | none => l := by
  unfold addOptional
  cases given : f.layer? with
  | some t => rw [LayerFile.table_of_layer? given]
  | none =>
      obtain ⟨e, fault⟩ := f.layer?_eq_none_iff.mp given
      rw [LayerFile.table_of_fault fault]

theorem foldl_addOptional (files : List LayerFile) : files.foldl addOptional empty =
    ⟨Table.overlayAll ((layersOf files).map fun layer => layer.2.withDateTexts),
      (layersOf files).getLast?.map Prod.fst⟩ := by
  induction files using List.reverseRecOn with
  | nil => rfl
  | append_singleton files f ih =>
      rw [List.foldl_append, List.foldl_cons, List.foldl_nil, ih, addOptional_eq, layersOf,
        layersOf, List.filterMap_append]
      cases given : f.layer? with
      | some t =>
          rw [List.filterMap_cons_some (by rw [given]; rfl), List.filterMap_nil, List.map_append,
            List.map_singleton, Table.overlayAll_append, List.getLast?_concat]
          rfl
      | none =>
          rw [List.filterMap_cons_none (by rw [given]; rfl), List.filterMap_nil, List.append_nil]

end Layers

namespace Configuration

/-- Two of some tables spell a setting differently. -/
def Clash (tables : List Table) : Prop :=
  ∃ field : Field, ∃ a ∈ field.keys, ∃ b ∈ field.keys, a ≠ b ∧
    ∃ (i j : Nat) (t t' : Table), i ≠ j ∧ tables[i]? = some t ∧ tables[j]? = some t' ∧
      t.HasKey a ∧ t'.HasKey b

theorem isUniform_of_not_clash {tables : List Table}
    (valid : ∀ t ∈ tables, ∀ field : Field, field.setting.get? t.withDateTexts ≠ none)
    (agree : ¬ Clash tables) (field : Field) :
    field.setting.IsUniform (tables.map Table.withDateTexts) := by
  rintro a spelled b spelled' ⟨_, inTexts, has⟩ ⟨_, inTexts', has'⟩
  obtain ⟨t, member, rfl⟩ := List.mem_map.mp inTexts
  obtain ⟨t', member', rfl⟩ := List.mem_map.mp inTexts'
  rw [Field.hasKey_withDateTexts] at has has'
  by_contra other
  obtain ⟨i, here⟩ := List.getElem?_of_mem member
  obtain ⟨j, there⟩ := List.getElem?_of_mem member'
  by_cases same : i = j
  · obtain rfl : t = t' := by
      rw [same, there] at here
      exact (Option.some.inj here).symm
    exact valid t member field (field.setting.get?_of_two spelled spelled' other
      ((Field.hasKey_withDateTexts t a).mpr has) ((Field.hasKey_withDateTexts t b).mpr has'))
  · rw [Field.spellings_setting] at spelled spelled'
    exact agree ⟨field, a, spelled, b, spelled', other, i, j, t, t', same, here, there, has, has'⟩

theorem ofTable?_of_clash {tables : List Table} (clash : Clash tables) :
    ofTable? (Table.overlayAll (tables.map Table.withDateTexts)) = none := by
  obtain ⟨field, a, spelled, b, spelled', other, i, j, t, t', _, here, there, has, has'⟩ := clash
  rw [← Field.spellings_setting] at spelled spelled'
  refine (ofTable?_eq_none_iff _).mpr
    ⟨field, field.setting.get?_of_two spelled spelled' other ?_ ?_⟩
  · exact (Table.hasKey_overlayAll _ a).mpr ⟨_, List.mem_map_of_mem (List.mem_of_getElem? here),
      (Field.hasKey_withDateTexts t a).mpr has⟩
  · exact (Table.hasKey_overlayAll _ b).mpr ⟨_, List.mem_map_of_mem (List.mem_of_getElem? there),
      (Field.hasKey_withDateTexts t' b).mpr has'⟩

theorem get?_of_mem_layersOf {files : List LayerFile} {layer : Path × Table}
    (member : layer ∈ layersOf files) (field : Field) :
    field.setting.get? layer.2.withDateTexts ≠ none := by
  obtain ⟨f, _, layered⟩ := List.mem_filterMap.mp member
  obtain ⟨t, given, rfl⟩ := Option.map_eq_some_iff.mp layered
  exact ((f.layer?_eq_some_iff t).mp given).2 field

/-- The files that are asked for all count, so the configuration is that of the layers that
the files give. -/
theorem ofFiles_eq {implicit : List LayerFile} {explicit : Option LayerFile}
    (valid : ∀ f ∈ explicit, f.layer? ≠ none) : ofFiles implicit explicit =
      ofLayers ((implicit ++ explicit.toList).foldl Layers.addOptional Layers.empty) := by
  cases explicit with
  | none => rw [Option.toList_none, List.append_nil, ofFiles]
  | some f =>
      obtain ⟨t, given⟩ := Option.ne_none_iff_exists'.mp (valid f rfl)
      rw [Option.toList_some, List.foldl_append, List.foldl_cons, List.foldl_nil,
        Layers.addOptional_eq, given, ofFiles]
      dsimp only
      rw [Layers.addRequired, LayerFile.table_of_layer? given]
      rfl

theorem ofFiles_of_fault (implicit : List LayerFile) {f : LayerFile} {e : ConfigurationError}
    (fault : f.Fault e) : ofFiles implicit (some f) = .error e := by
  simp only [ofFiles, Layers.addRequired, LayerFile.table_of_fault fault]
  rfl

/-- What the layers of some files come to: an error that names the last of them when they clash,
and else a configuration that has each field from the last layer with it. -/
theorem ofLayers_foldl (files : List LayerFile) :
    let tables := (layersOf files).map Prod.snd
    (Clash tables → ∃ last, (layersOf files).getLast? = some last ∧
      ofLayers (files.foldl Layers.addOptional Layers.empty) = .error (.malformed last.1)) ∧
    (¬ Clash tables → ∃ c, ofLayers (files.foldl Layers.addOptional Layers.empty) = .ok c ∧
      ∀ field : Field, field.Latest tables (field.of c)) := by
  intro tables
  have texts : ((layersOf files).map fun layer => layer.2.withDateTexts) =
      tables.map Table.withDateTexts := (List.map_map).symm
  rw [Layers.foldl_addOptional, ofLayers, texts]
  dsimp only
  constructor
  · intro clash
    obtain ⟨_, _, _, _, _, _, i, _, t, _, _, here, _⟩ := id clash
    have some : layersOf files ≠ [] := by
      intro none
      simp [tables, none] at here
    refine ⟨_, List.getLast?_eq_some_getLast some, ?_⟩
    rw [ofTable?_of_clash clash, List.getLast?_eq_some_getLast some]
    rfl
  · intro agree
    have valid : ∀ t ∈ tables, ∀ field : Field, field.setting.get? t.withDateTexts ≠ none := by
      rw [List.forall_mem_map]
      exact fun layer member field => get?_of_mem_layersOf member field
    have valid' (field : Field) :
        ∀ t ∈ tables.map Table.withDateTexts, field.setting.get? t ≠ none := by
      rw [List.forall_mem_map]
      exact fun t member => valid t member field
    have each : ∀ field : Field, field.setting.get? (Table.overlayAll (tables.map
        Table.withDateTexts)) = some (field.setting.latest (tables.map Table.withDateTexts)) :=
      fun field => Setting.get?_overlayAll (valid' field)
        (isUniform_of_not_clash valid agree field)
    obtain ⟨c, described⟩ := exists_of_get? fun field => by
      rw [each field]
      simp
    refine ⟨c, by rw [described], fun field => ?_⟩
    have given := (ofTable?_eq_some_iff _ c).mp described field
    rw [each field] at given
    rw [← Option.some.inj given]
    exact field.latest_setting fun t member => valid t member field

theorem load_of_fault (disk : Disk) (home : Path) (workspace : Option Path) {explicit : Path}
    {e : ConfigurationError}
    (fault : (LayerFile.mk explicit (disk.readText explicit)).Fault e) :
    load disk home workspace (some explicit) = .error e :=
  ofFiles_of_fault _ fault

/-- When nothing is wrong with the file that was asked for, it is a layer like the others. -/
theorem load_of_sound (disk : Disk) (home : Path) (workspace explicit : Option Path)
    (right : ∀ p ∈ explicit, ∀ e, ¬ (LayerFile.mk p (disk.readText p)).Fault e) :
    load disk home workspace explicit =
      ofLayers ((((userFile home :: (workspace.map fun w => w.child projectFile).toList) ++
        explicit.toList).map fun p => LayerFile.mk p (disk.readText p)).foldl
          Layers.addOptional Layers.empty) := by
  have valid : ∀ f ∈ explicit.map fun p => LayerFile.mk p (disk.readText p),
      f.layer? ≠ none := by
    rintro f asked nothing
    obtain ⟨p, here, rfl⟩ := Option.map_eq_some_iff.mp asked
    obtain ⟨e, fault⟩ := LayerFile.layer?_eq_none_iff _ |>.mp nothing
    exact right p here e fault
  rw [load, ofFiles_eq valid, List.map_append]
  cases explicit <;> rfl

end Configuration

end LintReport
