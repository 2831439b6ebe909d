import LintReport.Proofs.Yaml.Scalar

set_option autoImplicit false

/- The lexer between two tokens of the block context. It is followed from one place where a key
or an item may start to the next; the block collections that end on the way there are closed
when the column of that place is known. -/
namespace LintReport.Yaml

theorem atMarker_of_ne {m c : Char} (other : c ≠ m) (rest : List Char) :
    atMarker m (c :: rest) = false := by
  match rest with
  | [] => rfl
  | [_] => rfl
  | _ :: _ :: _ => simp [atMarker, other]

namespace Lexer

theorem skipGaps_spaces (flow keyAllowed : Bool) (place : Place) (n : Nat) (rest : List Char) :
    skipGaps flow false keyAllowed place (List.replicate n ' ' ++ rest) =
      skipGaps flow false keyAllowed (place.advance n) rest := by
  induction n generalizing place with
  | zero => rfl
  | succ n ih =>
      have space : isBreak ' ' = false := by decide
      rw [List.replicate_succ, List.cons_append, skipGaps, space, if_neg (by decide),
        if_neg (by decide), if_pos (Or.inl rfl), ih, Place.next_advance]

theorem skipGaps_newline (place : Place) (column : Nat) (keyAllowed : Bool) (rest : List Char) :
    skipGaps false false keyAllowed place (Written.newline column ++ rest) =
      skipGaps false false true (place.nextLine.advance column) rest := by
  have feed : isBreak '\n' = true := by decide
  rw [Written.newline, List.cons_append, skipGaps, feed, if_pos rfl, if_neg (by simp),
    Bool.not_false, Bool.or_true, skipGaps_spaces]

theorem skipGaps_bare {s : List Char} (bare : Bare s) (flow keyAllowed : Bool) (place : Place) :
    skipGaps flow false keyAllowed place s = (⟨place, s⟩, keyAllowed) := by
  cases s with
  | nil => rfl
  | cons c rest =>
      obtain ⟨inside, solid, text⟩ := bare c rfl
      have other : ¬(c = ' ' ∨ c = '\t') := by simpa [isSpace] using solid
      rw [skipGaps, inside, if_neg (by decide), if_neg (by simp [text]), if_neg]
      rintro (space | ⟨tab, -⟩)
      · exact other (Or.inl space)
      · exact other (Or.inr tab)

/-! States and runs. -/

/-- The state between two tokens of the block context when no key is noted. `stack` has the
columns of the open collections. -/
def between (place : Place) (rest : List Char) (ts : List Token) (stack : List Nat)
    (keyAllowed : Bool) : Lexer where
  cursor := ⟨place, rest⟩
  tokens := ts
  count := ts.length
  candidates := [none]
  indents := stack
  keyAllowed := keyAllowed
  finished := false

/-- What comes before the next token: white space is passed and deeper collections end. -/
def settle (l : Lexer) : Option Lexer := do
  let (cursor, keyAllowed) := skipGaps l.flow false l.keyAllowed l.cursor.place l.cursor.rest
  let candidates ← dropStale cursor.place l.candidates
  some (closeTo cursor.place.column { l with cursor, keyAllowed, candidates })

theorem settle_of {l : Lexer} {cursor : Cursor} {keyAllowed : Bool}
    {candidates : List (Option KeyStart)} (block : l.flow = false)
    (skips : skipGaps false false l.keyAllowed l.cursor.place l.cursor.rest = (cursor, keyAllowed))
    (kept : dropStale cursor.place l.candidates = some candidates) :
    settle l = some (closeTo cursor.place.column { l with cursor, keyAllowed, candidates }) := by
  rw [settle, block, skips]
  dsimp only
  rw [kept]
  rfl

theorem fetch_eq_settle (l : Lexer) : fetch l = (settle l).bind fetchHere := by
  simp only [fetch, settle, Option.bind_eq_bind]
  cases dropStale _ l.candidates <;> rfl

/-- The lexer gets from one state to the other, with at least one character for each token. -/
def Reads (l l' : Lexer) : Prop :=
  ∃ n, n + l'.cursor.rest.length ≤ l.cursor.rest.length ∧
    ∀ fuel, run (fuel + n) l = run fuel l'

theorem Reads.trans {a b c : Lexer} (first : Reads a b) (second : Reads b c) : Reads a c := by
  obtain ⟨n, shorter, runs⟩ := first
  obtain ⟨m, shorter', runs'⟩ := second
  refine ⟨m + n, by omega, fun fuel => ?_⟩
  rw [← Nat.add_assoc, runs, runs']

theorem Reads.of_fetch {l l' : Lexer} (open' : l.finished = false) (fetched : fetch l = some l')
    (shorter : l'.cursor.rest.length < l.cursor.rest.length) : Reads l l' := by
  refine ⟨1, by omega, fun fuel => ?_⟩
  rw [run, open', if_neg (by decide), fetched]
  rfl

/-- No open collection is deeper than `column`. -/
def Covers (column : Nat) (stack : List Nat) : Prop := ∀ i ∈ stack.head?, i ≤ column

theorem closeTo_covered {column : Nat} {l : Lexer} (covers : Covers column l.indents) :
    closeTo column l = l := by
  have none : (l.indents.takeWhile fun (i : Nat) => decide ((column : Int) < i)) = [] := by
    cases equal : l.indents with
    | nil => rfl
    | cons i rest =>
        have reached : i ≤ column := covers i (by rw [equal]; rfl)
        rw [List.takeWhile_cons, if_neg (by simpa using reached)]
  unfold closeTo
  split
  · rfl
  · rw [none]
    rfl

theorem closeTo_between (column : Int) (place : Place) (rest : List Char) (ts : List Token)
    (stack : List Nat) (keyAllowed : Bool) {deeper : Nat}
    (count : (stack.takeWhile fun (i : Nat) => decide (column < (i : Int))).length = deeper) :
    closeTo column (between place rest ts stack keyAllowed) =
      between place rest (List.replicate deeper .blockEnd ++ ts) (stack.drop deeper)
        keyAllowed := by
  have block : (between place rest ts stack keyAllowed).flow = false := rfl
  rw [closeTo, block, if_neg (by decide)]
  simp only [between, count, List.length_append, List.length_replicate, Nat.add_comm]

/-- A collection ends in front of a smaller column. -/
theorem closeTo_pop {column : Int} {i : Nat} (deeper : column < i) (place : Place)
    (rest : List Char) (ts : List Token) (stack : List Nat) (keyAllowed : Bool) :
    closeTo column (between place rest ts (i :: stack) keyAllowed) =
      closeTo column (between place rest (.blockEnd :: ts) stack keyAllowed) := by
  have taken : ((i :: stack).takeWhile fun (i : Nat) => decide (column < (i : Int))).length =
      (stack.takeWhile fun (i : Nat) => decide (column < (i : Int))).length + 1 := by
    rw [List.takeWhile_cons, if_pos (decide_eq_true deeper), List.length_cons]
  rw [closeTo_between _ _ _ _ _ _ taken, closeTo_between _ _ _ _ _ _ rfl, List.drop_succ_cons,
    List.replicate_succ', List.append_assoc, List.singleton_append]

/-- The next token starts at `column`, where a key is allowed, and `rest` begins with it. Which
of the collections in `stack` end there is still open. -/
structure Awaits (l : Lexer) (column : Nat) (rest : List Char) (ts : List Token)
    (stack : List Nat) : Prop where
  unfinished : l.finished = false
  shorter : rest.length ≤ l.cursor.rest.length
  settles : ∃ place : Place, place.column = column ∧
    settle l = some (closeTo column (between place rest ts stack true))

theorem Awaits.pop {l : Lexer} {column i : Nat} {rest : List Char} {ts : List Token}
    {stack : List Nat} (awaits : Awaits l column rest ts (i :: stack)) (deeper : column < i) :
    Awaits l column rest (.blockEnd :: ts) stack := by
  obtain ⟨place, here, settles⟩ := awaits.settles
  refine ⟨awaits.unfinished, awaits.shorter, place, here, ?_⟩
  rw [settles, closeTo_pop (by omega)]

/-- Where nothing ends, it is clear what comes next. -/
theorem Awaits.settled {l : Lexer} {column : Nat} {rest : List Char} {ts : List Token}
    {stack : List Nat} (awaits : Awaits l column rest ts stack) (covers : Covers column stack) :
    ∃ place : Place, place.column = column ∧
      fetch l = fetchHere (between place rest ts stack true) := by
  obtain ⟨place, here, settles⟩ := awaits.settles
  exact ⟨place, here, by rw [fetch_eq_settle, settles, closeTo_covered covers, Option.bind_some]⟩

theorem settle_between {place after : Place} {s rest : List Char} {ts : List Token}
    {stack : List Nat} {keyAllowed keyAllowed' : Bool}
    (skips : skipGaps false false keyAllowed place s = (⟨after, rest⟩, keyAllowed')) :
    settle (between place s ts stack keyAllowed) =
      some (closeTo after.column (between after rest ts stack keyAllowed')) :=
  settle_of rfl skips rfl

theorem awaits_newline (place : Place) (column : Nat) {rest : List Char} (bare : Bare rest)
    (ts : List Token) (stack : List Nat) (keyAllowed : Bool) :
    Awaits (between place (Written.newline column ++ rest) ts stack keyAllowed) column rest ts
      stack := by
  have here : (place.nextLine.advance column).column = column := Nat.zero_add column
  have skips := skipGaps_newline place column keyAllowed rest
  rw [skipGaps_bare bare] at skips
  refine ⟨rfl, by simp [between], place.nextLine.advance column, here, ?_⟩
  rw [settle_between skips, here]

theorem awaits_spaces (place : Place) (n : Nat) {rest : List Char} (bare : Bare rest)
    (ts : List Token) (stack : List Nat) :
    Awaits (between place (List.replicate n ' ' ++ rest) ts stack true) (place.column + n) rest ts
      stack := by
  refine ⟨rfl, by simp [between], place.advance n, rfl, ?_⟩
  have skips := skipGaps_spaces false true place n rest
  rw [skipGaps_bare bare] at skips
  exact settle_between skips

end Lexer

end LintReport.Yaml
