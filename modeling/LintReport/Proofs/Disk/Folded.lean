import LintReport.Proofs.Disk.Walk
import LintReport.Proofs.Path.Front
import Mathlib.Data.List.Infix

set_option autoImplicit false

/- Where folding is right. A double dot leads out of the directory that was reached, and folding
takes it for the one that was named. The two differ behind a link only, so a path and its normal
form lead to the same place unless a double dot of the path leads out of a link. -/
namespace LintReport

namespace Disk

open LintReport.Path (Part Folded fold normalParts ofParts separator period)

variable {d : Disk} {p : Path} {n : FileName} {below : List Part}

theorem Admits.normalize (admitted : Admits p) (named : p.fileName = some n) :
    Admits p.normalize := by
  have part := Path.sublist_normalize named
  refine ⟨fun zero => admitted.noZero (part.subset zero), ?_, ?_⟩
  · obtain ⟨below, top⟩ := Path.exists_folded_of_fileName named
    rw [Path.normalize_eq_ofParts top]
    exact Path.bytes_ofParts_ne_nil (top ▸ Path.folded_parts p)
  · exact part.length_le.trans admitted.short

/-! The steps of a path are its parts, but for dots. -/

theorem innerSteps_inner {part : Part} (inner : part.Inner) :
    innerSteps part.bytes = [part] := by
  have whole : Text.splitOn separator part.bytes = [part.bytes] := by
    rw [Text.splitOn_eq, List.splitOn_eq_singleton inner.noSlash]
  rw [innerSteps, whole]
  cases inner with
  | parent => rfl
  | name named =>
      obtain ⟨some, _, notDot, notDots⟩ := named
      simp [Part.bytes, stepOf, some, notDot, notDots]

theorem innerSteps_spelled {ps : List Part} (inner : ∀ part ∈ ps, part.Inner) :
    innerSteps (Path.spelled ps) = ps := by
  induction ps with
  | nil => rfl
  | cons part ps ih =>
      obtain ⟨first, others⟩ := List.forall_mem_cons.mp inner
      rw [Path.spelled_cons]
      cases ps with
      | nil => simpa using innerSteps_inner first
      | cons next ps =>
          rw [List.isEmpty_cons, if_neg Bool.false_ne_true, innerSteps_append_cons,
            innerSteps_inner first, ih others]
          rfl

theorem innerSteps_slash (bytes : List UInt8) : innerSteps (separator :: bytes) = innerSteps bytes :=
  innerSteps_append_cons [] bytes

/-- A normal form that ends in a name ends in no slash. -/
theorem getLast?_ofParts (folded : Folded (.name n :: below)) :
    (ofParts (Part.name n :: below).reverse).bytes.getLast? ≠ some separator := by
  have text := Path.ofParts_append_slash folded
  obtain ⟨⟨some, noSlash, _⟩, _⟩ := Path.folded_name_cons.mp folded
  have last : (Part.name n).bytes ≠ [] := some
  intro slash
  rw [List.reverse_cons, Path.slashed, List.flatMap_append, List.flatMap_singleton,
    ← List.append_assoc, ← List.reverse_cons] at text
  rw [List.append_cancel_right text, List.getLast?_append_of_ne_nil _ last] at slash
  exact noSlash (List.mem_of_getLast? slash)

/-- A path in normal form that ends in a name asks for its parts and nothing else. -/
theorem stepsOf_ofParts (folded : Folded (.name n :: below)) :
    stepsOf (ofParts (Part.name n :: below).reverse) = (Part.name n :: below).reverse := by
  have parts := Path.parts_ofParts folded
  rw [stepsOf_eq, if_neg (getLast?_ofParts folded), List.append_nil]
  obtain ⟨inner, allInner, rooted | relative⟩ := folded.exists_inner
  · have absolute : (ofParts (Part.name n :: below).reverse).isAbsolute = true := by
      rw [Path.isAbsolute_iff_head?_parts, parts, rooted]
      rfl
    rw [if_pos absolute, rooted, Path.bytes_ofParts_root, innerSteps_slash,
      innerSteps_spelled allInner]
    rfl
  · have relative' : ¬ (ofParts (Part.name n :: below).reverse).isAbsolute = true := by
      rw [Path.isAbsolute_iff_head?_parts, parts, relative]
      exact fun rooted => nomatch allInner _ (List.mem_of_mem_head? rooted)
    rw [if_neg relative', relative, Path.bytes_ofParts allInner, innerSteps_spelled allInner]
    rfl

theorem filter_stepsOf (p : Path) :
    (stepsOf p).filter (· ≠ .current) = p.parts.filter (· ≠ .current) := by
  have behind (bytes : List UInt8) : (innerSteps bytes).filter (· ≠ .current) =
      (Path.relativeParts bytes).filter (· ≠ .current) := by
    rw [relativeParts_eq_filter, List.filter_filter]
    simp
  have ends : (if p.bytes.getLast? = some separator then [Part.current] else []).filter
      (· ≠ .current) = [] := by
    split <;> rfl
  rw [stepsOf_eq, List.filter_append, List.filter_append, ends, List.append_nil]
  unfold Path.isAbsolute Path.parts Path.partsOf
  split
  · next rest text =>
      change p.bytes = separator :: rest at text
      rw [text, if_pos rfl, innerSteps_slash, behind]
      rfl
  · next relative =>
      rw [if_neg Bool.false_ne_true]
      split
      · next rest rooted => exact absurd rooted (relative rest)
      · next text =>
          rw [text]
          rfl
      · next rest text =>
          change p.bytes = [period] ++ separator :: rest at text
          rw [text, innerSteps_append_cons, List.filter_append, behind, behind]
          rfl
      · exact behind _

/-! Folding while walking. -/

variable {root : Node} {links left : Nat} {trail : Trail} {anchor stack front rest : List Part}

/-- Behind `anchor`, no name of a link is on top of the stack. -/
def TopPlain (root : Node) (links : Nat) (anchor stack : List Part) : Prop :=
  ∀ n below, stack = .name n :: below → ∀ between middle,
    Leads root links [] (anchor ++ below.reverse) between middle →
      ∀ target, (reached root middle).child? n ≠ some (.link target)

/-- Folding one part onto the stack does not change where a walk along both leads. -/
theorem Leads.fold {part : Part} (folded : Folded stack) (inner : part.Inner)
    (plain : part = .parent → TopPlain root links anchor stack)
    (leads : Leads root links [] (anchor ++ stack.reverse ++ part :: rest) left trail) :
    Leads root links [] (anchor ++ (fold stack part).reverse ++ rest) left trail := by
  -- A part that is put on the stack is walked just as before.
  have put : Leads root links [] (anchor ++ (part :: stack).reverse ++ rest) left trail := by
    rwa [List.reverse_cons, ← List.append_assoc, List.append_assoc (anchor ++ stack.reverse)]
  cases inner with
  | name => exact put
  | parent =>
      obtain ⟨names, base, rfl, based, _⟩ := folded
      cases names with
      | cons n names =>
          -- The name on top and the double dot behind it are left out.
          rw [List.map_cons, List.cons_append, List.reverse_cons, ← List.append_assoc,
            List.append_assoc (anchor ++ _)] at leads
          obtain ⟨between, middle, before, behind⟩ := leads.cut
          have plain' := plain rfl n _ rfl between middle before
          exact before.append (behind.of_name_parent plain')
      | nil =>
          cases based with
          | root =>
              have split : anchor ++ [Part.root] ++ .parent :: rest =
                  anchor ++ .root :: .parent :: rest := List.append_assoc ..
              have split' : anchor ++ [Part.root] ++ rest = anchor ++ .root :: rest :=
                List.append_assoc ..
              rw [List.map_nil, List.nil_append, List.reverse_singleton, split] at leads
              obtain ⟨between, middle, before, behind⟩ := leads.cut
              show Leads root links [] (anchor ++ [Part.root] ++ rest) left trail
              rw [split']
              exact before.append behind.of_root_parent
          | up count => cases count <;> exact put

/-- Folding all parts does not either. -/
theorem Leads.foldl_fold (inner : ∀ part ∈ rest, part.Inner)
    (folded : Folded (front.foldl Path.fold []))
    (plain : ∀ before after, front ++ rest = before ++ .parent :: after →
      TopPlain root links anchor (before.foldl Path.fold []))
    (leads : Leads root links [] (anchor ++ (front.foldl Path.fold []).reverse ++ rest) left trail) :
    Leads root links [] (anchor ++ ((front ++ rest).foldl Path.fold []).reverse) left trail := by
  induction rest generalizing front with
  | nil => rwa [List.append_nil] at leads ⊢
  | cons part rest ih =>
      obtain ⟨first, others⟩ := List.forall_mem_cons.mp inner
      have longer : front ++ part :: rest = front ++ [part] ++ rest := by simp
      have once : (front ++ [part]).foldl Path.fold [] =
          Path.fold (front.foldl Path.fold []) part := by
        rw [List.foldl_append, List.foldl_cons, List.foldl_nil]
      rw [longer] at plain ⊢
      apply ih others
      · rw [once]
        exact Path.folded_fold folded first
      · exact plain
      · rw [once]
        refine leads.fold folded first ?_
        rintro rfl
        exact plain front rest longer.symm

/-- Whether what lies at a path itself is a link. -/
def isLink (d : Disk) (p : Path) : Bool :=
  let steps := stepsOf (d.workingFolder.join p)
  match steps.getLast?, follow d.root maxLinks [] steps.dropLast with
  | some (.name n), .ok trail =>
      match (reached d.root trail).child? n with
      | some (.link _) => true
      | _ => false
  | _, _ => false

/-- No double dot of the path leads out of a link. -/
def LeavesNoLink (d : Disk) (p : Path) : Prop :=
  ∀ front ∈ p.parts.inits, front ++ [.parent] <+: p.parts →
    d.isLink (ofParts (normalParts front)) = false

instance (d : Disk) (p : Path) : Decidable (d.LeavesNoLink p) :=
  inferInstanceAs (Decidable (∀ front ∈ p.parts.inits, _ → _))

theorem child?_ne_of_isLink {steps : List Part}
    (asks : stepsOf (d.workingFolder.join p) = steps ++ [.name n]) (plain : d.isLink p = false)
    (leads : Leads d.root maxLinks [] steps left trail) (target : List UInt8) :
    (reached d.root trail).child? n ≠ some (.link target) := by
  have arrived : follow d.root maxLinks [] steps = .ok trail := follow_eq_ok_iff.mpr ⟨left, leads⟩
  intro link
  have linked : d.isLink p = true := by
    unfold isLink
    dsimp only
    rw [asks, List.getLast?_concat, List.dropLast_concat, arrived]
    dsimp only
    rw [link]
  rw [linked] at plain
  cases plain

theorem topPlain_of_leavesNoLink {ahead : List Part}
    (joined : ∀ q : Path, q.bytes ≠ [] →
      stepsOf (d.workingFolder.join q) = (if q.isAbsolute then [] else ahead) ++ stepsOf q)
    (direct : d.LeavesNoLink p) {front back : List Part}
    (split : p.parts = front ++ .parent :: back) :
    TopPlain d.root maxLinks (if p.isAbsolute then [] else ahead) (front.foldl Path.fold []) := by
  intro n below top between middle leads
  have folded : Folded (.name n :: below) := top ▸ Path.folded_of_split split
  have listed : front ∈ p.parts.inits := List.mem_inits _ _ |>.mpr ⟨_, split.symm⟩
  have left : front ++ [.parent] <+: p.parts := ⟨back, by simp [split]⟩
  have plain := direct front listed left
  rw [normalParts, top] at plain
  have asks := joined _ (Path.bytes_ofParts_ne_nil folded)
  rw [Path.isAbsolute_of_split split top, stepsOf_ofParts folded, List.reverse_cons,
    ← List.append_assoc, ← List.reverse_cons] at asks
  exact child?_ne_of_isLink asks plain leads

/-- A path to a file and its normal form lead along one trail, if no double dot of the path leads
out of a link. -/
theorem locate_normalize (direct : d.LeavesNoLink p) (named : p.fileName = some n)
    (located : d.locate p = .ok trail) : d.locate p.normalize = .ok trail := by
  obtain ⟨admitted, left, leads⟩ := locate_eq_ok_iff.mp located
  obtain ⟨ahead, joined⟩ := stepsOf_join d.workingFolder
  obtain ⟨below, top⟩ := Path.exists_folded_of_fileName named
  have folded : Folded (.name n :: below) := top ▸ Path.folded_parts p
  obtain ⟨front, inner, parts, allInner, foldedFront, kept⟩ := Path.exists_folded_front p
  rw [joined p admitted.filled] at leads
  obtain ⟨between, middle, before, behind⟩ := leads.cut
  have dotless := behind.without_current
  rw [filter_stepsOf, kept] at dotless
  have start := before.append dotless
  rw [← List.append_assoc] at start
  have walked := start.foldl_fold allInner foldedFront fun before after split =>
    topPlain_of_leavesNoLink joined direct (parts.trans split)
  have admitted' := admitted.normalize named
  have normal := joined p.normalize admitted'.filled
  rw [Path.isAbsolute_normalize_eq, Path.normalize_eq_ofParts top, stepsOf_ofParts folded,
    ← Path.normalize_eq_ofParts top] at normal
  rw [← parts, top, ← normal] at walked
  exact locate_eq_ok_iff.mpr ⟨admitted', left, walked⟩

theorem exists_fileName_of_read {content : List UInt8} (read : d.read p = .ok content) :
    ∃ n, p.fileName = some n := by
  obtain ⟨trail, located, runnable, node⟩ := read_eq_ok_iff.mp read
  cases named : p.fileName with
  | some n => exact ⟨n, rfl⟩
  | none =>
      have other := isFile_of_fileName_none d named
      simp [isFile, find?, located, Except.map, node] at other

/-- Then both hold the same bytes. -/
theorem read_normalize (direct : d.LeavesNoLink p) {content : List UInt8}
    (read : d.read p = .ok content) : d.read p.normalize = .ok content := by
  obtain ⟨n, named⟩ := exists_fileName_of_read read
  obtain ⟨trail, located, node⟩ := read_eq_ok_iff.mp read
  exact read_eq_ok_iff.mpr ⟨trail, locate_normalize direct named located, node⟩

end Disk

end LintReport
