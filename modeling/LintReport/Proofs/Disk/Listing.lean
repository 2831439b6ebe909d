import LintReport.Proofs.Disk.Folders

set_option autoImplicit false

/- The order in which directories are listed. Where no directory has two entries of one name, the
listing is in the order of the paths, so each directory stands in it once, behind the one it lies
in and in front of those beside it with larger names. -/
namespace LintReport.Disk

open LintReport.Path (IsName)

namespace Node

/-- A tree in which the entries of each directory have different names. -/
inductive Distinct : Node → Prop
  | file (content : List UInt8) (runnable readable : Bool) :
      Distinct (.file content runnable readable)
  | link (target : List UInt8) : Distinct (.link target)
  | directory {entries : List (FileName × Node)} {rights : Rights}
      (once : (entries.map Prod.fst).Nodup) (below : ∀ e ∈ entries, Distinct e.2) :
      Distinct (.directory entries rights)

theorem Distinct.once {n : Node} (distinct : n.Distinct) : (n.entries.map Prod.fst).Nodup := by
  cases distinct with
  | file => exact List.nodup_nil
  | link => exact List.nodup_nil
  | directory once _ => exact once

theorem Distinct.entry {n : Node} (distinct : n.Distinct) {e : FileName × Node}
    (entry : e ∈ n.entries) : e.2.Distinct := by
  cases distinct with
  | file => cases entry
  | link => cases entry
  | directory _ below => exact below e entry

theorem LeadsTo.of_append {n : Node} {path : Path} {way more : List FileName}
    (leads : n.LeadsTo path (way ++ more)) : n.LeadsTo path way := by
  induction way generalizing n path with
  | nil => exact leadsTo_nil.mpr leads.isDirectory
  | cons name way ih =>
      obtain ⟨listed, entered, child, entry, further⟩ := leadsTo_cons.mp leads
      have entered' (deeper : way ≠ []) : n.rights.enter = true :=
        entered (List.append_ne_nil_of_left_ne_nil deeper more)
      exact leadsTo_cons.mpr ⟨listed, entered', child, entry, ih further⟩

theorem distinct_singleton {name : FileName} {n : Node} (below : n.Distinct) {rights : Rights} :
    (Node.directory [(name, n)] rights).Distinct :=
  .directory (List.pairwise_singleton _ _) (List.forall_mem_singleton.mpr below)

/-- Directories beside each other are in the order of their names, and no name comes twice. -/
theorem pairwise_subfolders {n : Node} (distinct : n.Distinct) :
    n.subfolders.Pairwise fun a b => Ord.compare a.1 b.1 = .lt := by
  have ordered : n.subfolders.Pairwise fun a b => (Ord.compare a.1 b.1).isLE = true := by
    apply List.pairwise_mergeSort
    · intro a b c first second
      exact Std.TransOrd.isLE_trans first second
    · intro a b
      exact FileName.isLE_total a.1 b.1
  have once : n.subfolders.Pairwise fun a b => a.1 ≠ b.1 := by
    have among : (n.entries.filter fun e => e.2.isDirectory).Pairwise fun a b => a.1 ≠ b.1 :=
      (List.pairwise_map.mp distinct.once).filter _
    exact (List.mergeSort_perm _ _).symm.pairwise among fun different => different.symm
  apply (ordered.and once).imp
  intro a b both
  exact FileName.lt_of_isLE_of_ne both.1 both.2

/-- The order of the names leaves one list. -/
theorem subfolders_eq {n : Node} (distinct : n.Distinct) {es : List (FileName × Node)}
    (among : (n.entries.filter fun e => e.2.isDirectory).Perm es)
    (sorted : es.Pairwise fun a b => Ord.compare a.1 b.1 = .lt) : n.subfolders = es := by
  have perm : n.subfolders.Perm es := (List.mergeSort_perm _ _).trans among
  apply perm.eq_of_pairwise _ (pairwise_subfolders distinct) sorted
  intro a b _ _ before after
  exact absurd after (FileName.lt_asymm before)

/-- A directory and those below it lie on the ways through its name. -/
theorem exists_way_of_mem_branch {e : FileName × Node} {path p : Path} {rights : Rights}
    (member : p ∈ branch path rights e) (folder : e.2.isDirectory = true) :
    ∃ way, e.2.LeadsTo (path.child e.1) way ∧ p = path.descend (e.1 :: way) := by
  rcases List.mem_cons.mp member with this | below
  · exact ⟨[], leadsTo_nil.mpr folder, this⟩
  · split at below
    case isFalse => cases below
    case isTrue =>
      obtain ⟨name, way, leads, place⟩ := mem_folders.mp below
      exact ⟨name :: way, leads, place⟩

theorem pairwise_folders {n : Node} (wellNamed : n.WellNamed) (distinct : n.Distinct)
    (path : Path) : (n.folders path).Pairwise fun p q => p.compare q = .lt := by
  induction n using induct_entries generalizing path with
  | step n ih =>
      have named {e : FileName × Node} (among : e ∈ n.subfolders) {way : List FileName}
          (leads : e.2.LeadsTo (path.child e.1) way) : ∀ name ∈ e.1 :: way, IsName name := by
        obtain ⟨here, below⟩ := wellNamed.entries e (mem_subfolders.mp among).1
        exact List.forall_mem_cons.mpr ⟨here, below.isName_of_leadsTo leads⟩
      rw [folders_eq]
      split
      case isFalse => exact List.Pairwise.nil
      rw [List.pairwise_flatMap]
      constructor
      · intro e among
        have entry := (mem_subfolders.mp among).1
        have wellNamed' := (wellNamed.entries e entry).2
        unfold branch
        split
        case isFalse => exact List.pairwise_singleton _ _
        rw [List.pairwise_cons]
        refine ⟨fun p member => ?_, ih e entry wellNamed' (distinct.entry entry) _⟩
        obtain ⟨name, way, leads, rfl⟩ := mem_folders.mp member
        apply Path.compare_descend _ (wellNamed'.isName_of_leadsTo leads) (List.cons_ne_nil _ _)
      · apply (pairwise_subfolders distinct).imp_of_mem
        intro a b amongA amongB smaller p inA q inB
        obtain ⟨wayA, leadsA, rfl⟩ := exists_way_of_mem_branch inA (mem_subfolders.mp amongA).2
        obtain ⟨wayB, leadsB, rfl⟩ := exists_way_of_mem_branch inB (mem_subfolders.mp amongB).2
        exact Path.compare_descend_of_lt path smaller (named amongA leadsA) (named amongB leadsB)

theorem pairwise_topFolders {n : Node} (wellNamed : n.WellNamed) (distinct : n.Distinct)
    (path : Path) : (n.topFolders path).Pairwise fun p q => p.compare q = .lt := by
  rw [topFolders_eq]
  split
  case isFalse => exact List.Pairwise.nil
  rw [List.pairwise_map]
  apply (pairwise_subfolders distinct).imp_of_mem
  intro a b amongA amongB smaller
  have namedA := (wellNamed.entries a (mem_subfolders.mp amongA).1).1
  have namedB := (wellNamed.entries b (mem_subfolders.mp amongB).1).1
  have order : (path.descend [a.1]).compare (path.descend [b.1]) = .lt :=
    Path.compare_descend_of_lt path smaller (List.forall_mem_singleton.mpr namedA)
      (List.forall_mem_singleton.mpr namedB)
  exact order

end Node

theorem hereditary_distinct : Hereditary Node.Distinct := by
  intro n child name distinct found
  exact distinct.entry (Node.mem_entries_of_child? found)

/-- What lists the directories below a path in pre-order, all of them or those right below it.
They are the paths on which names lead on through directories that can be listed, not through
links, and they are in the order of paths, in which a directory comes before what lies below it and
that before the next directory beside it. -/
structure Lists (d : Disk) (base : Path) (deep : Bool) (paths : List Path) : Prop where
  sorted : paths.Pairwise fun p q => p.compare q = .lt
  complete (p : Path) : p ∈ paths ↔ ∃ node name way, d.find? base = .ok node ∧
    node.LeadsTo base (name :: way) ∧ (deep = true ∨ way = []) ∧ p = base.descend (name :: way)
  nested {node : Node} {name last : FileName} {way : List FileName}
    (found : d.find? base = .ok node) (leads : node.LeadsTo base (name :: way ++ [last]))
    (all : deep = true) :
    List.Sublist [base.descend (name :: way), base.descend (name :: way ++ [last])] paths

theorem sublist_of_pairwise {paths : List Path}
    (sorted : paths.Pairwise fun p q => p.compare q = .lt) {p q : Path} (there : p ∈ paths)
    (there' : q ∈ paths) (before : p.compare q = .lt) : List.Sublist [p, q] paths := by
  obtain ⟨front, back, rfl⟩ := List.append_of_mem there
  have behind : q ∈ back := by
    rcases List.mem_append.mp there' with inFront | rest
    · have after := (List.pairwise_append.mp sorted).2.2 q inFront p List.mem_cons_self
      exact absurd rfl (Path.not_same_of_lt (Path.compare_trans before after))
    · rcases List.mem_cons.mp rest with rfl | inBack
      · exact absurd rfl (Path.not_same_of_lt before)
      · exact inBack
  have pair : List.Sublist [p, q] (p :: back) :=
    List.cons_sublist_cons.mpr (List.singleton_sublist.mpr behind)
  exact pair.trans (List.sublist_append_right front (p :: back))

/-- There is one listing. -/
theorem Lists.unique {d : Disk} {base : Path} {deep : Bool} {paths paths' : List Path}
    (lists : d.Lists base deep paths) (lists' : d.Lists base deep paths') : paths = paths' := by
  have once {ps : List Path} (sorted : ps.Pairwise fun p q => p.compare q = .lt) : ps.Nodup := by
    apply sorted.imp
    intro p q before same
    rw [same] at before
    exact Path.not_same_of_lt before rfl
  have perm : paths.Perm paths' :=
    (List.perm_ext_iff_of_nodup (once lists.sorted) (once lists'.sorted)).mpr fun p =>
      (lists.complete p).trans (lists'.complete p).symm
  apply perm.eq_of_pairwise _ lists.sorted lists'.sorted
  intro p q _ _ before after
  exact absurd rfl (Path.not_same_of_lt (Path.compare_trans before after))

theorem pairwise_foldersBelow {d : Disk} (wellNamed : d.root.WellNamed)
    (distinct : d.root.Distinct) (deep : Bool) (base : Path) :
    (d.foldersBelow deep base).Pairwise fun p q => p.compare q = .lt := by
  unfold foldersBelow
  split
  · next node found =>
      have wellNamed' := of_find? hereditary_wellNamed wellNamed found
      have distinct' := of_find? hereditary_distinct distinct found
      split
      · exact Node.pairwise_folders wellNamed' distinct' base
      · exact Node.pairwise_topFolders wellNamed' distinct' base
  · exact List.Pairwise.nil

theorem lists_foldersBelow {d : Disk} (wellNamed : d.root.WellNamed) (distinct : d.root.Distinct)
    (deep : Bool) (base : Path) : d.Lists base deep (d.foldersBelow deep base) where
  sorted := pairwise_foldersBelow wellNamed distinct deep base
  complete _ := mem_foldersBelow
  nested {node name last way} found leads all := by
    have named := (of_find? hereditary_wellNamed wellNamed found).isName_of_leadsTo leads
    apply sublist_of_pairwise (pairwise_foldersBelow wellNamed distinct deep base)
    · exact mem_foldersBelow.mpr ⟨node, name, way, found, leads.of_append, Or.inl all, rfl⟩
    · exact mem_foldersBelow.mpr ⟨node, name, way ++ [last], found, leads, Or.inl all, rfl⟩
    · rw [Path.descend_append]
      exact Path.compare_descend _ (fun n member => named n (List.mem_append_right _ member))
        (List.cons_ne_nil _ _)

end LintReport.Disk
