import LintReport.Proofs.Disk.Walk
import LintReport.Proofs.Path.Descend

set_option autoImplicit false

/- The directories below a path, which are those that names lead to through directories that can be
listed. In a tree whose entries have names that are read as one part each, those below an absolute
path in normal form are such paths. -/
namespace LintReport.Disk

open LintReport.Path (IsName IsRooted)

/-- A tree in which each entry has a name that is read as one part. -/
inductive Node.WellNamed : Node → Prop
  | file (content : List UInt8) (runnable readable : Bool) :
      Node.WellNamed (.file content runnable readable)
  | link (target : List UInt8) : Node.WellNamed (.link target)
  | directory {entries : List (FileName × Node)} {rights : Rights}
      (named : ∀ e ∈ entries, IsName e.1) (below : ∀ e ∈ entries, Node.WellNamed e.2) :
      Node.WellNamed (.directory entries rights)

namespace Node

theorem WellNamed.entries {n : Node} (wellNamed : n.WellNamed) :
    ∀ e ∈ n.entries, IsName e.1 ∧ e.2.WellNamed := by
  intro e member
  cases wellNamed with
  | file => cases member
  | link => cases member
  | directory named below => exact ⟨named e member, below e member⟩

theorem wellNamed_singleton {name : FileName} (named : IsName name) {n : Node}
    (below : n.WellNamed) {rights : Rights} : (Node.directory [(name, n)] rights).WellNamed :=
  .directory (List.forall_mem_singleton.mpr named) (List.forall_mem_singleton.mpr below)

theorem mem_entries_of_child? {n child : Node} {name : FileName}
    (found : n.child? name = some child) : (name, child) ∈ n.entries := by
  obtain ⟨e, first, rfl⟩ := Option.map_eq_some_iff.mp found
  have same := List.find?_some (p := fun e : FileName × Node => decide (e.1 = name)) first
  rw [← of_decide_eq_true same]
  exact List.mem_of_find?_eq_some first

/-- What holds of a node when it holds of its entries holds of each node. -/
theorem induct_entries {motive : Node → Prop}
    (step : ∀ n, (∀ e ∈ n.entries, motive e.2) → motive n) : ∀ n, motive n
  | .file content runnable readable =>
      step (.file content runnable readable) (List.forall_mem_nil _)
  | .link target => step (.link target) (List.forall_mem_nil _)
  | .directory entries rights =>
      step (.directory entries rights) fun e _ => induct_entries step e.2
decreasing_by
  have entry : sizeOf e < sizeOf entries := List.sizeOf_lt_of_mem ‹_›
  have node : sizeOf e = 1 + sizeOf e.1 + sizeOf e.2 := Prod.mk.sizeOf_spec e.1 e.2
  rw [directory.sizeOf_spec entries rights]
  omega

/-- Names along which listing gets from a node at a path to a directory. A link is not entered.
Each directory on the way can be listed: its path is not too long to be opened, its entries may be
read, and but for the first the one around it may be entered. -/
inductive LeadsTo : Node → Path → List FileName → Prop
  | here (entries : List (FileName × Node)) (rights : Rights) (path : Path) :
      LeadsTo (.directory entries rights) path []
  | through {entries : List (FileName × Node)} {rights : Rights} {path : Path} {name : FileName}
      {child : Node} {way : List FileName} (readable : rights.list = true)
      (short : path.bytes.length ≤ 4095) (entered : way ≠ [] → rights.enter = true)
      (entry : (name, child) ∈ entries) (further : LeadsTo child (path.child name) way) :
      LeadsTo (.directory entries rights) path (name :: way)

theorem listed_iff {path : Path} {rights : Rights} :
    listed path rights = true ↔ rights.list = true ∧ path.bytes.length ≤ 4095 := by
  rw [listed, Bool.and_eq_true, decide_eq_true_iff]
  rfl

@[simp] theorem leadsTo_nil {n : Node} {path : Path} : n.LeadsTo path [] ↔ n.isDirectory = true := by
  constructor
  · rintro ⟨entries⟩
    rfl
  · intro folder
    cases n with
    | directory entries rights => exact .here entries rights path
    | file => cases folder
    | link => cases folder

theorem leadsTo_cons {n : Node} {path : Path} {name : FileName} {way : List FileName} :
    n.LeadsTo path (name :: way) ↔ listed path n.rights = true ∧
      (way ≠ [] → n.rights.enter = true) ∧
      ∃ child, (name, child) ∈ n.entries ∧ child.LeadsTo (path.child name) way := by
  constructor
  · rintro (_ | ⟨readable, short, entered, entry, further⟩)
    exact ⟨listed_iff.mpr ⟨readable, short⟩, entered, _, entry, further⟩
  · rintro ⟨listed, entered, child, entry, further⟩
    obtain ⟨readable, short⟩ := listed_iff.mp listed
    cases n with
    | directory entries => exact .through readable short entered entry further
    | file => cases entry
    | link => cases entry

theorem LeadsTo.isDirectory {n : Node} {path : Path} {way : List FileName}
    (leads : n.LeadsTo path way) : n.isDirectory = true := by
  cases leads <;> rfl

theorem WellNamed.isName_of_leadsTo {n : Node} (wellNamed : n.WellNamed) {path : Path}
    {way : List FileName} (leads : n.LeadsTo path way) : ∀ name ∈ way, IsName name := by
  induction leads with
  | here => exact List.forall_mem_nil _
  | through _ _ _ entry _ ih =>
      obtain ⟨named, wellNamed'⟩ := wellNamed.entries _ entry
      exact List.forall_mem_cons.mpr ⟨named, ih wellNamed'⟩

/-- The directories among the entries of a node, in the order of their names. -/
def subfolders (n : Node) : List (FileName × Node) :=
  (n.entries.filter fun e => e.2.isDirectory).mergeSort fun a b => (Ord.compare a.1 b.1).isLE

theorem mem_subfolders {n : Node} {e : FileName × Node} :
    e ∈ n.subfolders ↔ e ∈ n.entries ∧ e.2.isDirectory = true := by
  rw [subfolders, List.mem_mergeSort, List.mem_filter]

/-- A directory at its path, and those below it if they are within reach. -/
def branch (path : Path) (rights : Rights) (e : FileName × Node) : List Path :=
  path.child e.1 :: if rights.enter then e.2.folders (path.child e.1) else []

theorem entryFolders_eq (path : Path) (rights : Rights) (entries : List (FileName × Node)) :
    entryFolders path rights entries =
      (entries.filter fun e => e.2.isDirectory).map fun e => (e.1, branch path rights e) := by
  induction entries with
  | nil => rfl
  | cons e entries ih =>
      obtain ⟨name, node⟩ := e
      cases node with
      | directory below => rw [entryFolders, ih]; rfl
      | file => simp [entryFolders, ih, isDirectory]
      | link => simp [entryFolders, ih, isDirectory]

theorem folders_eq (path : Path) (n : Node) :
    n.folders path =
      if listed path n.rights then n.subfolders.flatMap (branch path n.rights) else [] := by
  have sorted : n.subfolders.map (fun e => (e.1, branch path n.rights e)) =
      (entryFolders path n.rights n.entries).mergeSort
        fun a b => (Ord.compare a.1 b.1).isLE := by
    rw [entryFolders_eq]
    exact List.map_mergeSort fun _ _ _ _ => rfl
  have all : n.folders path = if listed path n.rights then
      (n.subfolders.map fun e => (e.1, branch path n.rights e)).flatMap Prod.snd else [] := by
    rw [sorted]
    cases n with
    | directory entries rights => rw [folders]; rfl
    | file | link => simp [folders, entries, entryFolders]
  rw [all, List.flatMap_map]

theorem topFolders_eq (path : Path) (n : Node) :
    n.topFolders path =
      if listed path n.rights then n.subfolders.map fun e => path.child e.1 else [] := by
  have sorted : n.subfolders.map Prod.fst = ((n.entries.filter fun e => e.2.isDirectory).map
      Prod.fst).mergeSort fun a b => (Ord.compare a b).isLE :=
    List.map_mergeSort fun _ _ _ _ => rfl
  rw [topFolders, ← sorted, List.map_map]
  rfl

/-- The directories below a node are where listing leads to from it. -/
theorem mem_folders {n : Node} {path p : Path} :
    p ∈ n.folders path ↔
      ∃ name way, n.LeadsTo path (name :: way) ∧ p = path.descend (name :: way) := by
  induction n using induct_entries generalizing path with
  | step n ih =>
      rw [folders_eq]
      constructor
      · intro member
        split at member
        case isFalse => cases member
        case isTrue listed =>
          obtain ⟨e, among, member⟩ := List.mem_flatMap.mp member
          obtain ⟨entry, folder⟩ := mem_subfolders.mp among
          rcases List.mem_cons.mp member with this | below
          · have here : e.2.LeadsTo (path.child e.1) [] := leadsTo_nil.mpr folder
            exact ⟨e.1, [], leadsTo_cons.mpr ⟨listed, fun some => absurd rfl some, e.2, entry, here⟩,
              this⟩
          · split at below
            case isFalse => cases below
            case isTrue entered =>
              obtain ⟨name, way, leads, place⟩ := (ih e entry).mp below
              exact ⟨e.1, name :: way,
                leadsTo_cons.mpr ⟨listed, fun _ => entered, e.2, entry, leads⟩, place⟩
      · rintro ⟨name, way, leads, place⟩
        obtain ⟨listed, entered, child, entry, further⟩ := leadsTo_cons.mp leads
        rw [if_pos listed]
        refine List.mem_flatMap.mpr
          ⟨(name, child), mem_subfolders.mpr ⟨entry, further.isDirectory⟩, ?_⟩
        cases way with
        | nil => exact place ▸ List.mem_cons_self
        | cons next way =>
            rw [branch, if_pos (entered (List.cons_ne_nil next way))]
            exact List.mem_cons_of_mem _ ((ih _ entry).mpr ⟨next, way, further, place⟩)

theorem mem_topFolders {n : Node} {path p : Path} :
    p ∈ n.topFolders path ↔ ∃ name, n.LeadsTo path [name] ∧ p = path.child name := by
  rw [topFolders_eq]
  constructor
  · intro member
    split at member
    case isFalse => cases member
    case isTrue listed =>
      obtain ⟨e, among, place⟩ := List.mem_map.mp member
      obtain ⟨entry, folder⟩ := mem_subfolders.mp among
      have here : e.2.LeadsTo (path.child e.1) [] := leadsTo_nil.mpr folder
      exact ⟨e.1, leadsTo_cons.mpr ⟨listed, fun some => absurd rfl some, e.2, entry, here⟩,
        place.symm⟩
  · rintro ⟨name, leads, place⟩
    obtain ⟨listed, _, child, entry, further⟩ := leadsTo_cons.mp leads
    rw [if_pos listed]
    exact List.mem_map.mpr
      ⟨(name, child), mem_subfolders.mpr ⟨entry, further.isDirectory⟩, place.symm⟩

end Node

/-- A property of nodes that goes over to the entries of a directory. -/
def Hereditary (P : Node → Prop) : Prop :=
  ∀ (n child : Node) (name : FileName), P n → n.child? name = some child → P child

theorem hereditary_wellNamed : Hereditary Node.WellNamed := by
  intro n child name wellNamed found
  exact (wellNamed.entries _ (Node.mem_entries_of_child? found)).2

section Inherited

variable {root : Node} {P : Node → Prop}

/-- A trail over nodes with a property. -/
def Throughout (P : Node → Prop) (trail : Trail) : Prop := ∀ e ∈ trail, P e.2

theorem of_throughout (start : P root) {trail : Trail} (passed : Throughout P trail) :
    P (reached root trail) := by
  cases trail with
  | nil => exact start
  | cons e trail => exact passed e List.mem_cons_self

variable (hereditary : Hereditary P) (start : P root)
include hereditary start

theorem Throughout.step {links between : Nat} {trail middle : Trail} {step : Path.Part}
    {more : List Path.Part} (passed : Throughout P trail)
    (taken : Step root links trail step more between middle) : Throughout P middle := by
  cases taken with
  | root => exact List.forall_mem_nil _
  | current => exact passed
  | parent => exact fun e member => passed e (List.mem_of_mem_tail member)
  | name _ _ _ found =>
      have child := hereditary _ _ _ (of_throughout start passed) found
      exact List.forall_mem_cons.mpr ⟨child, passed⟩
  | link => exact passed

theorem Throughout.leads {links left : Nat} {trail trail' : Trail} {steps : List Path.Part}
    (passed : Throughout P trail) (leads : Leads root links trail steps left trail') :
    Throughout P trail' := by
  induction leads with
  | arrived => exact passed
  | step taken _ ih => exact ih (passed.step hereditary start taken)

end Inherited

/-- A property of the tree is one of each node that a path leads to. -/
theorem of_find? {P : Node → Prop} (hereditary : Hereditary P) {d : Disk} (start : P d.root)
    {p : Path} {n : Node} (found : d.find? p = .ok n) : P n := by
  rw [find?_eq] at found
  cases located : d.locate p with
  | error e =>
      rw [located] at found
      cases found
  | ok trail =>
      rw [located] at found
      obtain ⟨_, _, leads⟩ := locate_eq_ok_iff.mp located
      have none : Throughout P [] := List.forall_mem_nil _
      have passed := none.leads hereditary start leads
      exact Except.ok.inj found ▸ of_throughout start passed

/-- What lies below a path is where the node there leads to, in one step or in any number. -/
theorem mem_foldersBelow {d : Disk} {deep : Bool} {base p : Path} :
    p ∈ d.foldersBelow deep base ↔ ∃ node name way, d.find? base = .ok node ∧
      node.LeadsTo base (name :: way) ∧ (deep = true ∨ way = []) ∧
      p = base.descend (name :: way) := by
  unfold foldersBelow
  cases found : d.find? base with
  | error e => simp
  | ok node =>
      cases deep with
      | true => simp [Node.mem_folders]
      | false => simp [Node.mem_topFolders]

/-- Below an absolute path in normal form lie such paths only. -/
theorem isRooted_foldersBelow {d : Disk} (wellNamed : d.root.WellNamed) (deep : Bool) {p : Path}
    (rooted : p.IsRooted) : ∀ q ∈ d.foldersBelow deep p, q.IsRooted := by
  intro q member
  obtain ⟨node, name, way, found, leads, _, rfl⟩ := mem_foldersBelow.mp member
  have wellNamed' := of_find? hereditary_wellNamed wellNamed found
  exact rooted.descend (wellNamed'.isName_of_leadsTo leads)

/-- The empty path leads to no directory. -/
@[simp] theorem foldersBelow_empty (d : Disk) (deep : Bool) : d.foldersBelow deep ⟨[]⟩ = [] := rfl

end LintReport.Disk
