import LintReport.Json.Parse
import LintReport.Proofs.Json.Token

set_option autoImplicit false

/- What is written is read back. Whatever is open around a value, its text leads to where the
value is delivered. -/
namespace LintReport.Json

/-- A value that has a text: all numbers natural, all texts and names whole. -/
inductive Plain : Json → Prop where
  | null : Plain .null
  | bool (b : Bool) : Plain (.bool b)
  | natural (n : Nat) : Plain (.natural n)
  | text (s : String) : Plain (.text s)
  | array {items : List Json} (plain : ∀ item ∈ items, Plain item) : Plain (.array items)
  | object {members : List (Option String × Json)} (named : ∀ m ∈ members, m.1.isSome = true)
      (plain : ∀ m ∈ members, Plain m.2) : Plain (.object members)

theorem plain_record {members : List (String × Json)} (plain : ∀ m ∈ members, Plain m.2) :
    Plain (record members) := by
  refine .object ?_ ?_
  · intro m member
    obtain ⟨_, _, rfl⟩ := List.mem_map.mp member
    rfl
  · intro m member
    obtain ⟨m', member', rfl⟩ := List.mem_map.mp member
    exact plain m' member'

namespace State

/-- Where the tokens of a text lead to. -/
def read (state : State) (s : List Char) : Option State :=
  (tokens? s).bind fun ts => ts.foldlM step state

@[simp] theorem read_nil (state : State) : state.read [] = some state := by
  rw [read, tokens?]
  rfl

/-- One step takes the first token. -/
theorem read_token {s left : List Char} {t : Token} (state : State)
    (first : token? s = some (t, left)) (solid : ∀ c ∈ s.head?, isSpace c = false) :
    state.read s = (state.step t).bind fun next => next.read left := by
  have all : tokens? s = (tokens? left).map (t :: ·) := by
    cases s with
    | nil => simp [token?] at first
    | cons c rest =>
        rw [tokens?, if_neg (by simp [solid c rfl])]
        split
        · next none =>
            rw [none] at first
            simp at first
        · next _ _ found =>
            rw [found, Option.some_inj, Prod.mk.injEq] at first
            rw [first.1, first.2]
  unfold read
  rw [all]
  cases tokens? left with
  | none => cases state.step t <;> rfl
  | some ts => rfl

theorem read_mark (state : State) {c : Char} (rest : List Char)
    (mark : c = '[' ∨ c = ']' ∨ c = '{' ∨ c = '}' ∨ c = ',' ∨ c = ':') :
    state.read (c :: rest) = (state.step (.mark c)).bind fun next => next.read rest := by
  refine read_token state (token?_mark rest mark) ?_
  intro d head
  rw [List.head?_cons, Option.mem_some] at head
  subst head
  rcases mark with rfl | rfl | rfl | rfl | rfl | rfl <;> rfl

/-- The states in which a value may come, and what it goes into. -/
inductive Awaits : List Frame → State → Prop where
  | value (stack : List Frame) : Awaits stack (.value stack)
  | firstItem (stack : List Frame) : Awaits (.array [] :: stack) (.firstItem stack)

theorem Awaits.step_eq {stack : List Frame} {state : State} {t : Token}
    (awaits : Awaits stack state) (opens : t ≠ .mark ']') : state.step t = start stack t := by
  cases awaits with
  | value => rfl
  | firstItem stack =>
      rw [step]
      exact opens

/-- The states in which the name of a member may come. -/
inductive AwaitsName : List (Option String × Json) → List Frame → State → Prop where
  | first (stack : List Frame) : AwaitsName [] stack (.firstKey stack)
  | next (members : List (Option String × Json)) (stack : List Frame) :
      AwaitsName members stack (.key members stack)

theorem AwaitsName.step_eq {members : List (Option String × Json)} {stack : List Frame}
    {state : State} (awaits : AwaitsName members stack state) (s : String) :
    state.step (.scalar (.text s)) = some (.colon members (some s) stack) := by
  cases awaits <;> rfl

end State

open State (deliver Awaits AwaitsName)

/-- The text of a value is read as the value. -/
def Reads (j : Json) : Prop :=
  ∀ (stack : List Frame) (state : State) (rest : List Char), Awaits stack state → Ends rest →
    state.read (j.render ++ rest) = (deliver j stack).read rest

theorem reads_scalar {j : Json} (first : ∀ rest, Ends rest →
      token? (j.render ++ rest) = some (.scalar j, rest))
    (solid : ∀ c ∈ j.render.head?, isSpace c = false) (some : j.render ≠ []) : Reads j := by
  intro stack state rest awaits ends
  rw [State.read_token state (first rest ends), awaits.step_eq (by simp)]
  · rfl
  · rw [List.head?_append, List.head?_eq_some_head some, Option.some_or,
      ← List.head?_eq_some_head]
    exact solid

theorem reads_natural (n : Nat) : Reads (.natural n) := by
  refine reads_scalar (fun rest ends => ?_) ?_ ?_
  · rw [render, token?_decimal n ends]
  · intro c head
    have digit := Text.isDigit_of_mem_decimal (List.mem_of_mem_head? head)
    have other : ∀ d, Text.isDigit d = false → c ≠ d := fun d => Text.ne_of_isDigit digit
    simp [isSpace, other ' ' rfl, other '\n' rfl, other '\t' rfl, other '\r' rfl]
  · rw [render]
    exact Text.decimal_ne_nil n

theorem solid_quoted (s : String) {rest : List Char} :
    ∀ c ∈ (quoted s ++ rest).head?, isSpace c = false := by
  intro c head
  rw [quoted, List.cons_append, List.cons_append, List.head?_cons, Option.mem_some] at head
  rw [← head]
  rfl

theorem reads_text (s : String) : Reads (.text s) := by
  refine reads_scalar (fun rest _ => ?_) ?_ ?_
  · rw [render, token?_quoted]
  · rw [render, ← List.append_nil (quoted s)]
    exact solid_quoted s
  · rw [render, quoted]
    exact List.cons_ne_nil _ _

theorem ends_cons {c : Char} (rest : List Char) (ends : c = ',' ∨ c = ']' ∨ c = '}') :
    Ends (c :: rest) := by
  intro d head
  rw [List.head?_cons, Option.mem_some] at head
  exact head ▸ ends

/-- The items that are left of an array are read behind those that were read before. -/
theorem read_renderItems {items : List Json} (reads : ∀ item ∈ items, Reads item)
    (nonempty : items ≠ []) (done : List Json) (stack : List Frame) {state : State}
    (awaits : Awaits (.array done :: stack) state) (rest : List Char) :
    state.read (renderItems items ++ ']' :: rest) =
      (deliver (.array (done.reverse ++ items)) stack).read rest := by
  induction items generalizing done state with
  | nil => exact absurd rfl nonempty
  | cons item items ih =>
      have here := reads item List.mem_cons_self
      cases items with
      | nil =>
          rw [renderItems, here _ state _ awaits (ends_cons rest (by decide)), deliver,
            State.read_mark _ rest (by decide), State.step, Option.bind_some, List.reverse_cons]
      | cons next items =>
          have later := ih (fun i member => reads i (List.mem_cons_of_mem item member))
            (List.cons_ne_nil next items) (item :: done) (.value _)
          rw [renderItems, List.append_assoc, List.cons_append,
            here _ state _ awaits (ends_cons _ (by decide)), deliver,
            State.read_mark _ _ (by decide), State.step, Option.bind_some, later,
            List.reverse_cons, List.append_assoc, List.singleton_append]
          exact List.cons_ne_nil next items

/-- A member with the colon behind its name. -/
theorem read_member {key : String} {value : Json} (reads : Reads value)
    {members : List (Option String × Json)} {stack : List Frame} {state : State}
    (awaits : AwaitsName members stack state) {rest : List Char} (ends : Ends rest) :
    state.read (quoted key ++ ':' :: render value ++ rest) =
      (State.afterMember ((some key, value) :: members) stack).read rest := by
  have name := token?_quoted key (':' :: render value ++ rest)
  rw [List.append_assoc, State.read_token state name, awaits.step_eq, Option.bind_some,
    List.cons_append, State.read_mark _ _ (by decide), State.step, Option.bind_some,
    reads _ _ rest (.value _) ends]
  · rfl
  · exact solid_quoted key

theorem read_renderMembers {members : List (Option String × Json)}
    (named : ∀ m ∈ members, m.1.isSome = true) (reads : ∀ m ∈ members, Reads m.2)
    (nonempty : members ≠ []) (done : List (Option String × Json)) (stack : List Frame)
    {state : State} (awaits : AwaitsName done stack state) (rest : List Char) :
    state.read (renderMembers members ++ '}' :: rest) =
      (deliver (.object (done.reverse ++ members)) stack).read rest := by
  induction members generalizing done state with
  | nil => exact absurd rfl nonempty
  | cons m members ih =>
      obtain ⟨key, value⟩ := m
      have here : Reads value := reads (key, value) List.mem_cons_self
      obtain ⟨key, rfl⟩ := Option.isSome_iff_exists.mp (named (key, value) List.mem_cons_self)
      cases members with
      | nil =>
          rw [renderMembers, Option.getD_some, read_member here awaits (ends_cons rest (by decide)),
            State.read_mark _ rest (by decide), State.step, Option.bind_some, List.reverse_cons]
      | cons next members =>
          have later := ih (fun m member => named m (List.mem_cons_of_mem _ member))
            (fun m member => reads m (List.mem_cons_of_mem _ member))
            (List.cons_ne_nil next members) ((some key, value) :: done) (.next _ stack)
          rw [renderMembers, Option.getD_some, List.append_assoc (quoted key ++ ':' :: render value),
            List.cons_append, read_member here awaits (ends_cons _ (by decide)),
            State.read_mark _ _ (by decide), State.step, Option.bind_some, later,
            List.reverse_cons, List.append_assoc, List.singleton_append]
          exact List.cons_ne_nil next members

theorem reads_array {items : List Json} (reads : ∀ item ∈ items, Reads item) :
    Reads (.array items) := by
  intro stack state rest awaits _
  rw [render, List.cons_append, List.cons_append, List.append_assoc, List.singleton_append,
    State.read_mark state _ (by decide), awaits.step_eq (by simp), State.start, Option.bind_some]
  by_cases empty : items = []
  · subst empty
    rw [renderItems, List.nil_append, State.read_mark _ rest (by decide), State.step,
      Option.bind_some]
  · exact read_renderItems reads empty [] stack (.firstItem stack) rest

theorem reads_object {members : List (Option String × Json)}
    (named : ∀ m ∈ members, m.1.isSome = true) (reads : ∀ m ∈ members, Reads m.2) :
    Reads (.object members) := by
  intro stack state rest awaits _
  rw [render, List.cons_append, List.cons_append, List.append_assoc, List.singleton_append,
    State.read_mark state _ (by decide), awaits.step_eq (by simp), State.start, Option.bind_some]
  by_cases empty : members = []
  · subst empty
    rw [renderMembers, List.nil_append, State.read_mark _ rest (by decide), State.step,
      Option.bind_some]
  · exact read_renderMembers named reads empty [] stack (.first stack) rest

theorem Plain.reads {j : Json} (plain : Plain j) : Reads j := by
  induction plain with
  | null => exact reads_scalar (fun _ _ => rfl) (by simp [render, isSpace]) (by simp [render])
  | bool b =>
      cases b
      · exact reads_scalar (fun _ _ => rfl) (by simp [render, isSpace]) (by simp [render])
      · exact reads_scalar (fun _ _ => rfl) (by simp [render, isSpace]) (by simp [render])
  | natural n => exact reads_natural n
  | text s => exact reads_text s
  | array _ reads => exact reads_array reads
  | object named _ reads => exact reads_object named reads

/-- A plain value is read back from its text. -/
theorem parse?_render {j : Json} (plain : Plain j) : parse? j.render = some j := by
  have done := plain.reads [] (.value []) [] (.value []) (fun _ none => by simp at none)
  rw [List.append_nil, deliver, State.read_nil] at done
  unfold State.read at done
  rw [parse?, done]

end LintReport.Json
