import LintReport.Disk

set_option autoImplicit false

/- Whole walks, with the links that they meet counted. Following some steps is walking along them,
so steps can be cut anywhere, and what stands in front of the cut can be exchanged for other steps
that lead there. -/
namespace LintReport.Disk

open LintReport.Path (Part)

/-- A directory that paths may be led through. -/
def Entered (root : Node) (trail : Trail) : Prop := (reached root trail).rights.enter = true

/-- One step from a trail with `links` links still allowed: where it leads, and the steps that it
puts in front of the others. Only a link puts any there, those of its target. -/
inductive Step (root : Node) : (links : Nat) → Trail → Part →
    (more : List Part) → (links' : Nat) → Trail → Prop
  | root {links : Nat} {trail : Trail} (inside : (reached root trail).isDirectory = true) :
      Step root links trail .root [] links []
  | current {links : Nat} {trail : Trail} (inside : (reached root trail).isDirectory = true) :
      Step root links trail .current [] links trail
  | parent {links : Nat} {trail : Trail} (inside : (reached root trail).isDirectory = true)
      (entered : Entered root trail) : Step root links trail .parent [] links trail.tail
  | name {links : Nat} {trail : Trail} {n : FileName} {node : Node}
      (inside : (reached root trail).isDirectory = true) (entered : Entered root trail)
      (short : n.length ≤ longestName)
      (found : (reached root trail).child? n = some node)
      (plain : ∀ target, node ≠ .link target) :
      Step root links trail (.name n) [] links ((n, node) :: trail)
  | link {links : Nat} {trail : Trail} {n : FileName} {target : List UInt8}
      (inside : (reached root trail).isDirectory = true) (entered : Entered root trail)
      (short : n.length ≤ longestName)
      (found : (reached root trail).child? n = some (.link target)) :
      Step root (links + 1) trail (.name n) (stepsOf ⟨target⟩) links trail

/-- Walking along some steps from one trail leads to another. Of the `links` links that may be met
`left` are still allowed there. -/
inductive Leads (root : Node) : (links : Nat) → Trail → List Part → (left : Nat) → Trail → Prop
  | arrived {links : Nat} {trail : Trail} : Leads root links trail [] links trail
  | step {links between left : Nat} {trail middle trail' : Trail} {step : Part}
      {more steps : List Part} (taken : Step root links trail step more between middle)
      (ahead : Leads root between middle (more ++ steps) left trail') :
      Leads root links trail (step :: steps) left trail'

variable {root : Node} {links left : Nat} {trail trail' : Trail} {steps : List Part}

theorem Step.inside {between : Nat} {middle : Trail} {step : Part} {more : List Part}
    (taken : Step root links trail step more between middle) :
    (reached root trail).isDirectory = true := by
  cases taken <;> assumption

theorem Leads.append {left' : Nat} {trail'' : Trail} {front back : List Part}
    (first : Leads root links trail front left trail')
    (second : Leads root left trail' back left' trail'') :
    Leads root links trail (front ++ back) left' trail'' := by
  induction first with
  | arrived => exact second
  | step taken _ ih =>
      rw [List.cons_append]
      apply Leads.step taken
      rw [← List.append_assoc]
      exact ih second

/-- A walk can be cut between any two of its steps. -/
theorem Leads.cut {front back : List Part}
    (whole : Leads root links trail (front ++ back) left trail') :
    ∃ between middle, Leads root links trail front between middle ∧
      Leads root between middle back left trail' := by
  generalize split : front ++ back = steps at whole
  induction whole generalizing front with
  | @arrived links trail =>
      obtain ⟨rfl, rfl⟩ := List.append_eq_nil_iff.mp split
      exact ⟨links, trail, .arrived, .arrived⟩
  | @step links _ _ trail _ _ step more steps taken ahead ih =>
      cases front with
      | nil =>
          rw [List.nil_append] at split
          rw [split]
          exact ⟨links, trail, .arrived, .step taken ahead⟩
      | cons first front =>
          rw [List.cons_append] at split
          obtain ⟨rfl, rest⟩ := List.cons.inj split
          -- What the step puts in front of the others lies in front of the cut.
          have later : (more ++ front) ++ back = more ++ steps := by rw [List.append_assoc, rest]
          obtain ⟨between, middle, before, behind⟩ := ih later
          exact ⟨between, middle, .step taken before, behind⟩

/-! Walks are what following does. -/

/-- A step uses up a link, or leaves the links and the other steps as they are. -/
theorem Step.spends {between : Nat} {middle : Trail} {step : Part} {more : List Part}
    (taken : Step root links trail step more between middle) :
    between < links ∨ between = links ∧ more = [] := by
  cases taken with
  | link => exact Or.inl (Nat.lt_succ_self _)
  | root | current | parent | name => exact Or.inr ⟨rfl, rfl⟩

@[simp] theorem follow_nil : follow root links trail [] = .ok trail := by
  rw [follow, walk]

theorem Step.follow_eq {between : Nat} {middle : Trail} {step : Part} {more : List Part}
    (taken : Step root links trail step more between middle) (steps : List Part) :
    follow root links trail (step :: steps) = follow root between middle (more ++ steps) := by
  rw [follow, walk.eq_def]
  dsimp only
  rw [if_neg (by simp [taken.inside])]
  cases taken with
  | root | current => rw [if_neg (by simp [looksUp]), List.nil_append, follow]
  | parent _ entered =>
      rw [Entered] at entered
      rw [if_neg (by simp [entered]), List.nil_append, follow]
  | @name _ _ n node _ entered short found plain =>
      rw [Entered] at entered
      rw [if_neg (by simp [entered])]
      dsimp only
      rw [if_neg (Nat.not_lt_of_le short), found, List.nil_append, follow]
      cases node with
      | link target => exact absurd rfl (plain target)
      | file | directory => rfl
  | link _ entered short found =>
      rw [Entered] at entered
      rw [if_neg (by simp [entered])]
      dsimp only
      rw [if_neg (Nat.not_lt_of_le short), found]

/-- Following that arrives somewhere takes its first step. -/
theorem exists_step_of_follow {step : Part}
    (arrived : follow root links trail (step :: steps) = .ok trail') :
    ∃ more between middle, Step root links trail step more between middle := by
  rw [follow, walk.eq_def] at arrived
  dsimp only at arrived
  by_cases inside : (reached root trail).isDirectory = true
  · rw [if_neg (by simp [inside])] at arrived
    by_cases entered : Entered root trail
    case neg =>
      rw [Entered, Bool.not_eq_true] at entered
      cases step with
      | root => exact ⟨[], links, [], .root inside⟩
      | current => exact ⟨[], links, trail, .current inside⟩
      | parent | name =>
          rw [if_pos (by simp [looksUp, entered])] at arrived
          cases arrived
    rw [if_neg (by rw [Entered] at entered; simp [entered])] at arrived
    cases step with
    | root => exact ⟨[], links, [], .root inside⟩
    | current => exact ⟨[], links, trail, .current inside⟩
    | parent => exact ⟨[], links, trail.tail, .parent inside entered⟩
    | name n =>
        dsimp only at arrived
        by_cases long : longestName < n.length
        · rw [if_pos long] at arrived
          cases arrived
        have short := Nat.le_of_not_lt long
        rw [if_neg long] at arrived
        cases found : (reached root trail).child? n with
        | none =>
            rw [found] at arrived
            cases arrived
        | some node =>
            cases node with
            | file | directory => exact ⟨[], links, _, .name inside entered short found nofun⟩
            | link target =>
                cases links with
                | zero =>
                    rw [found] at arrived
                    cases arrived
                | succ links => exact ⟨_, links, trail, .link inside entered short found⟩
  · rw [if_pos (by simp [inside])] at arrived
    cases arrived

/-- Following finds the walk along its steps, if there is one within the limit on links. -/
theorem follow_eq_ok_iff :
    follow root links trail steps = .ok trail' ↔ ∃ left, Leads root links trail steps left trail' := by
  constructor
  · intro arrived
    -- A link is used up or a step is taken away.
    induction links using Nat.strongRecOn generalizing trail steps with
    | ind links fewer =>
      induction steps generalizing trail with
      | nil =>
          rw [follow_nil] at arrived
          cases arrived
          exact ⟨links, .arrived⟩
      | cons step steps ih =>
          obtain ⟨more, between, middle, taken⟩ := exists_step_of_follow arrived
          rw [taken.follow_eq] at arrived
          rcases taken.spends with less | ⟨rfl, rfl⟩
          · obtain ⟨left, ahead⟩ := fewer between less arrived
            exact ⟨left, .step taken ahead⟩
          · obtain ⟨left, ahead⟩ := ih arrived
            exact ⟨left, .step taken ahead⟩
  · rintro ⟨left, leads⟩
    induction leads with
    | arrived => exact follow_nil
    | step taken _ ih => rw [taken.follow_eq, ih]

/-! Steps that change nothing. -/

/-- A walk does not need its dots. -/
theorem Leads.without_current (leads : Leads root links trail steps left trail') :
    Leads root links trail (steps.filter (· ≠ .current)) left trail' := by
  induction steps generalizing links trail with
  | nil => exact leads
  | cons step steps ih =>
      by_cases dot : step = .current
      · subst dot
        rw [List.filter_cons_of_neg (by simp)]
        cases leads with
        | step taken ahead =>
            cases taken
            exact ih ahead
      · rw [List.filter_cons_of_pos (by simpa using dot)]
        rw [← List.singleton_append] at leads ⊢
        obtain ⟨between, middle, first, second⟩ := leads.cut
        exact first.append (ih second)

/-- A double dot at the root leads nowhere. -/
theorem Leads.of_root_parent (leads : Leads root links trail (.root :: .parent :: steps) left trail') :
    Leads root links trail (.root :: steps) left trail' := by
  cases leads with
  | step taken ahead =>
      cases taken with
      | root inside =>
          cases ahead with
          | step taken' ahead' =>
              cases taken'
              exact .step (.root inside) ahead'

/-- A double dot behind a name leads back, unless the name is that of a link. -/
theorem Leads.of_name_parent {n : FileName}
    (plain : ∀ target, (reached root trail).child? n ≠ some (.link target))
    (leads : Leads root links trail (.name n :: .parent :: steps) left trail') :
    Leads root links trail steps left trail' := by
  cases leads with
  | step taken ahead =>
      cases taken with
      | name inside entered short found =>
          cases ahead with
          | step taken' ahead' =>
              cases taken'
              exact ahead'
      | link inside entered short found => exact absurd found (plain _)

/-! Reading a file is walking to it. -/

/-- A path that can be looked up at all. -/
structure Admits (p : Path) : Prop where
  noZero : 0 ∉ p.bytes
  filled : p.bytes ≠ []
  short : p.bytes.length ≤ longestPath

/-- A path is located by the walk along its steps, behind those of the working folder. -/
theorem locate_eq_ok_iff {d : Disk} {p : Path} {trail : Trail} :
    d.locate p = .ok trail ↔ Admits p ∧ ∃ left,
      Leads d.root maxLinks [] (stepsOf (d.workingFolder.join p)) left trail := by
  unfold locate
  constructor
  · intro located
    split at located
    · cases located
    split at located
    · cases located
    split at located
    · cases located
    · next noZero filled short =>
        have admitted : Admits p := ⟨by simpa using noZero, by simpa using filled, by omega⟩
        exact ⟨admitted, follow_eq_ok_iff.mp located⟩
  · rintro ⟨⟨noZero, filled, short⟩, leads⟩
    rw [if_neg (by simpa using noZero), if_neg (by simpa using filled), if_neg (by omega)]
    exact follow_eq_ok_iff.mpr leads

theorem read_eq_ok_iff {d : Disk} {p : Path} {content : List UInt8} :
    d.read p = .ok content ↔ ∃ trail, d.locate p = .ok trail ∧
      ∃ runnable, reached d.root trail = .file content runnable true := by
  unfold read find?
  cases located : d.locate p with
  | error e => simp [Except.map]
  | ok trail =>
      cases node : reached d.root trail with
      | file _ runnable readable =>
          cases runnable <;> cases readable <;> simp [Except.map, node, Node.isReadable]
      | directory _ rights =>
          by_cases list : rights.list = true <;> simp [Except.map, node, Node.isReadable, list]
      | link => simp [Except.map, node, Node.isReadable]

end LintReport.Disk
