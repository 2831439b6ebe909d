import LintReport.Proofs.Position.LineIndex
import Mathlib.Data.List.Chain
import Mathlib.Data.List.TakeWhile
import Mathlib.Data.Nat.PSub

set_option autoImplicit false

/- Where lines start and where they end, kept apart in two arrays and filled by a cursor that
goes through the bytes once. What is in the arrays fits together at each step, so that no look-up
of a position in them leaves their bounds or those of the content. -/
namespace LintReport

/-- The offsets where lines start, and those where their contents end. -/
structure LineTable where
  starts : Array Nat
  stops : Array Nat

namespace LineTable

variable (content : List UInt8)

/-- The bytes between two offsets. -/
def slice (start stop : Nat) : List UInt8 := (content.drop start).take (stop - start)

/-- The offset behind the terminator that starts at an offset, if one does. -/
def behind? (offset : Nat) : Option Nat :=
  match content[offset]? with
  | some 13 => some (if content[offset + 1]? = some 10 then offset + 2 else offset + 1)
  | some 10 => some (offset + 1)
  | _ => none

/-- Ends a line and starts the next one. -/
def endLine (t : LineTable) (stop next : Nat) : LineTable := ⟨t.starts.push next, t.stops.push stop⟩

/-- Looks at the byte under the cursor: where the cursor goes, and what it leaves. -/
def step (cursor : Nat) (t : LineTable) : Nat × LineTable :=
  match behind? content cursor with
  | some next => (next, t.endLine cursor next)
  | none => (cursor + 1, t)

theorem lt_of_behind? {offset next : Nat} (found : behind? content offset = some next) :
    offset < next := by
  unfold behind? at found
  split at found
  · cases found
    split <;> omega
  · cases found
    omega
  · cases found

theorem lt_step (cursor : Nat) (t : LineTable) : cursor < (step content cursor t).1 := by
  unfold step
  split
  · next found => exact lt_of_behind? content found
  · exact Nat.lt_succ_self cursor

/-- Goes on with the cursor to the end of the content. -/
def scanFrom (cursor : Nat) (t : LineTable) : LineTable :=
  if cursor < content.length then
    scanFrom (step content cursor t).1 (step content cursor t).2
  else t
termination_by content.length - cursor
decreasing_by
  have forward := lt_step content cursor t
  omega

/-- Ends the last line. -/
def close (t : LineTable) (stop : Nat) : LineTable := ⟨t.starts, t.stops.push stop⟩

/-- The table of a content. The last line ends where the content does. -/
def ofContent : LineTable := (scanFrom content 0 ⟨#[0], #[]⟩).close content.length

/-- Bytes between two lines: a pair, a carriage return without a line feed, or a line feed. -/
inductive Terminates (stop next : Nat) : Prop
  | pair (bytes : slice content stop next = [13, 10])
  | single (bytes : slice content stop next = [13]) (alone : content[next]? ≠ some 10)
  | feed (bytes : slice content stop next = [10])

/-- No byte between two offsets belongs to a terminator. -/
def Clear (start stop : Nat) : Prop := ∀ b ∈ slice content start stop, b ≠ 13 ∧ b ≠ 10

/-- A line that lies in the content and ends before its terminator. -/
structure Line (start stop : Nat) : Prop where
  ordered : start ≤ stop
  inside : stop ≤ content.length
  clear : Clear content start stop

/-- What holds with the cursor at an offset: all lines but the last have ended, each has a
terminator between its end and the next start, and the last line reaches to the cursor. -/
structure Reached (cursor : Nat) (t : LineTable) : Prop where
  sizes : t.starts.size = t.stops.size + 1
  first : t.starts[0]? = some 0
  ended : ∀ i < t.stops.size, ∃ start stop next, t.starts[i]? = some start ∧
    t.stops[i]? = some stop ∧ t.starts[i + 1]? = some next ∧
    Line content start stop ∧ stop < next ∧ Terminates content stop next
  opened : ∃ start, t.starts[t.stops.size]? = some start ∧ Line content start cursor

variable {content}

theorem slice_self (start : Nat) : slice content start start = [] := by
  rw [slice, Nat.sub_self, List.take_zero]

theorem slice_succ {start stop : Nat} (ordered : start ≤ stop) {b : UInt8}
    (here : content[stop]? = some b) :
    slice content start (stop + 1) = slice content start stop ++ [b] := by
  have width : stop + 1 - start = stop - start + 1 := by omega
  have index : start + (stop - start) = stop := by omega
  rw [slice, width, List.take_add_one, List.getElem?_drop, index, here, slice]
  rfl

theorem slice_single {offset : Nat} {b : UInt8} (here : content[offset]? = some b) :
    slice content offset (offset + 1) = [b] := by
  rw [slice_succ (Nat.le_refl offset) here, slice_self, List.nil_append]

/-- A terminator that is found is one, and where none is found no byte of one stands. -/
theorem terminates_of_behind? {offset next : Nat} (found : behind? content offset = some next) :
    next ≤ content.length ∧ Terminates content offset next := by
  unfold behind? at found
  split at found
  · next here =>
      obtain ⟨inside, _⟩ := List.getElem?_eq_some_iff.mp here
      split at found
      · next pair =>
          cases found
          obtain ⟨inside', _⟩ := List.getElem?_eq_some_iff.mp pair
          refine ⟨inside', .pair ?_⟩
          rw [slice_succ (Nat.le_succ offset) pair, slice_single here]
          rfl
      · next alone =>
          cases found
          exact ⟨inside, .single (slice_single here) alone⟩
  · next here =>
      cases found
      obtain ⟨inside, _⟩ := List.getElem?_eq_some_iff.mp here
      exact ⟨inside, .feed (slice_single here)⟩
  · cases found

theorem plain_of_behind? {offset : Nat} (none : behind? content offset = none) {b : UInt8}
    (here : content[offset]? = some b) : b ≠ 13 ∧ b ≠ 10 := by
  unfold behind? at none
  rw [here] at none
  constructor
  · rintro rfl
    cases none
  · rintro rfl
    cases none

theorem line_self {offset : Nat} (inside : offset ≤ content.length) :
    Line content offset offset := by
  refine ⟨Nat.le_refl offset, inside, ?_⟩
  rw [Clear, slice_self]
  simp

theorem Line.succ {start stop : Nat} (line : Line content start stop) {b : UInt8}
    (here : content[stop]? = some b) (plain : b ≠ 13 ∧ b ≠ 10) :
    Line content start (stop + 1) := by
  obtain ⟨inside, _⟩ := List.getElem?_eq_some_iff.mp here
  refine ⟨Nat.le_succ_of_le line.ordered, inside, ?_⟩
  rw [Clear, slice_succ line.ordered here, List.forall_mem_append]
  exact ⟨line.clear, by simpa using plain⟩

theorem reached_start : Reached content 0 ⟨#[0], #[]⟩ :=
  ⟨rfl, rfl, fun i below => absurd below (Nat.not_lt_zero i),
    0, rfl, line_self (Nat.zero_le content.length)⟩

/-- The line that is open at the cursor ends there, and the next one is open behind it. -/
theorem Reached.endLine {cursor next : Nat} {t : LineTable} (reached : Reached content cursor t)
    (inside : next ≤ content.length) (forward : cursor < next)
    (terminates : Terminates content cursor next) :
    Reached content next (t.endLine cursor next) := by
  obtain ⟨start, last, line⟩ := reached.opened
  have sizes := reached.sizes
  refine ⟨?_, ?_, ?_, next, ?_, line_self inside⟩
  · rw [LineTable.endLine, Array.size_push, Array.size_push, sizes]
  · rw [LineTable.endLine, Array.getElem?_push, if_neg (by omega), reached.first]
  · intro i below
    rw [LineTable.endLine, Array.size_push] at below
    simp only [LineTable.endLine, Array.getElem?_push]
    by_cases old : i < t.stops.size
    · rw [if_neg (by omega), if_neg (by omega), if_neg (by omega)]
      exact reached.ended i old
    · have newest : i = t.stops.size := by omega
      rw [if_neg (by omega), if_pos newest, if_pos (by omega), newest]
      exact ⟨start, cursor, next, last, rfl, rfl, line, forward, terminates⟩
  · rw [LineTable.endLine, Array.size_push, Array.getElem?_push, if_pos sizes.symm]

theorem Reached.step {cursor : Nat} {t : LineTable} (reached : Reached content cursor t)
    (below : cursor < content.length) :
    Reached content (step content cursor t).1 (step content cursor t).2 := by
  unfold LineTable.step
  split
  · next next found =>
      obtain ⟨inside, terminates⟩ := terminates_of_behind? found
      exact reached.endLine inside (lt_of_behind? content found) terminates
  · next none =>
      obtain ⟨start, last, line⟩ := reached.opened
      have here := List.getElem?_eq_getElem below
      exact { reached with opened := ⟨start, last, line.succ here (plain_of_behind? none here)⟩ }

theorem Reached.scanFrom {cursor : Nat} {t : LineTable} (reached : Reached content cursor t) :
    Reached content content.length (scanFrom content cursor t) := by
  fun_induction LineTable.scanFrom content cursor t with
  | case1 cursor t below ih => exact ih (reached.step below)
  | case2 cursor t behind =>
      obtain ⟨_, _, line⟩ := reached.opened
      have done : cursor = content.length := by
        have inside := line.inside
        omega
      exact done ▸ reached

/-- What the two arrays say of a content: as many starts as ends, the first start at the front,
each line in the content and free of terminators, one terminator between a line and the next, and
the last end at the end. -/
structure Covers (content : List UInt8) (t : LineTable) : Prop where
  sizes : t.starts.size = t.stops.size
  first : t.starts[0]? = some 0
  ascending : t.starts.toList.Pairwise (· < ·)
  line : ∀ i start stop : Nat, t.starts[i]? = some start → t.stops[i]? = some stop →
    Line content start stop
  between : ∀ i stop next : Nat, t.stops[i]? = some stop → t.starts[i + 1]? = some next →
    Terminates content stop next
  last : t.stops.back? = some content.length

theorem Reached.ascending {cursor : Nat} {t : LineTable} (reached : Reached content cursor t) :
    t.starts.toList.Pairwise (· < ·) := by
  rw [← List.isChain_iff_pairwise, List.isChain_iff_getElem]
  intro i below
  have ended : i < t.stops.size := by
    have sizes := reached.sizes
    rw [Array.length_toList] at below
    omega
  obtain ⟨start, stop, next, here, _, there, line, forward, _⟩ := reached.ended i ended
  obtain ⟨_, here⟩ := Array.getElem?_eq_some_iff.mp here
  obtain ⟨_, there⟩ := Array.getElem?_eq_some_iff.mp there
  rw [Array.getElem_toList, Array.getElem_toList, here, there]
  have ordered := line.ordered
  omega

/-- At the end of the content the last line ends, too. -/
theorem Reached.covers {t : LineTable} (reached : Reached content content.length t) :
    Covers content (t.close content.length) := by
  have sizes := reached.sizes
  unfold close
  refine ⟨?_, reached.first, reached.ascending, ?_, ?_, Array.back?_push⟩
  · rw [sizes, Array.size_push]
  · intro i start stop here there
    rw [Array.getElem?_push] at there
    split at there
    · next newest =>
        obtain ⟨start', last, line⟩ := reached.opened
        rw [newest, last] at here
        cases here
        cases there
        exact line
    · obtain ⟨below, _⟩ := Array.getElem?_eq_some_iff.mp there
      obtain ⟨start', stop', _, here', there', _, line, _⟩ := reached.ended i below
      rw [here'] at here
      rw [there'] at there
      cases here
      cases there
      exact line
  · intro i stop next here there
    have below : i < t.stops.size := by
      obtain ⟨behind, _⟩ := Array.getElem?_eq_some_iff.mp there
      dsimp only at behind
      omega
    obtain ⟨_, stop', next', _, here', there', _, _, terminates⟩ := reached.ended i below
    rw [Array.getElem?_push, if_neg (by omega), here'] at here
    rw [there'] at there
    cases here
    cases there
    exact terminates

theorem covers_ofContent (content : List UInt8) : Covers content (ofContent content) :=
  reached_start.scanFrom.covers

/-! Looking up a position with every bound checked. -/

/-- The bytes between two offsets, if these are in order and in the content. -/
def slice? (content : List UInt8) (start stop : Nat) : Option (List UInt8) :=
  if start ≤ stop ∧ stop ≤ content.length then some (slice content start stop) else none

/-- The position of an offset; `none` if a number would fall below zero or a bound be left. -/
def positionAt? (t : LineTable) (content : List UInt8) (offset : Nat) : Option Position := do
  let inside := min offset content.length
  let number ← Nat.psub (t.starts.toList.takeWhile fun start => decide (start ≤ inside)).length 1
  let start ← t.starts[number]?
  let stop ← t.stops[number]?
  let before ← slice? content start (min inside stop)
  some ⟨number.toUInt32, (Utf8.decodeLossy before).length.toUInt32⟩

/-- Some line starts at or before each offset, and the last one that does has an end. -/
theorem Covers.exists_line {t : LineTable} (covers : Covers content t) (offset : Nat) :
    ∃ number start stop,
      (t.starts.toList.takeWhile fun start => decide (start ≤ offset)).length = number + 1 ∧
      t.starts[number]? = some start ∧ t.stops[number]? = some stop ∧ start ≤ offset := by
  obtain ⟨rest, split⟩ := List.takeWhile_prefix (l := t.starts.toList)
    (fun start => decide (start ≤ offset))
  rcases List.eq_nil_or_concat' (t.starts.toList.takeWhile fun start => decide (start ≤ offset))
    with none | ⟨before, start, front⟩
  · obtain ⟨starts, read⟩ : ∃ starts, t.starts.toList = 0 :: starts := by
      rw [← List.head?_eq_some_iff, List.head?_eq_getElem?, Array.getElem?_toList]
      exact covers.first
    rw [read, List.takeWhile_cons_of_pos (by simp)] at none
    cases none
  · have member : start ∈ t.starts.toList.takeWhile fun start => decide (start ≤ offset) := by
      simp [front]
    have reached : start ≤ offset := by simpa using List.mem_takeWhile_imp member
    have here : t.starts[before.length]? = some start := by
      rw [← Array.getElem?_toList, ← split, front]
      simp
    obtain ⟨below, _⟩ := Array.getElem?_eq_some_iff.mp here
    have there := Array.getElem?_eq_getElem (covers.sizes ▸ below)
    exact ⟨before.length, start, _, by simp [front], here, there, reached⟩

/-! The lines of the index are those of the two arrays. -/

section Steps

variable {front rest : List UInt8} {b : UInt8} (t : LineTable)

theorem scanFrom_of_behind? {bytes : List UInt8} {next : Nat} (filled : bytes ≠ [])
    (found : behind? (front ++ bytes) front.length = some next) :
    scanFrom (front ++ bytes) front.length t =
      scanFrom (front ++ bytes) next (t.endLine front.length next) := by
  have below : front.length < (front ++ bytes).length := by
    rw [List.length_append]
    have positive := List.length_pos_iff.mpr filled
    omega
  rw [LineTable.scanFrom, if_pos below, LineTable.step, found]

theorem scanFrom_pair : scanFrom (front ++ 13 :: 10 :: rest) front.length t =
    scanFrom (front ++ 13 :: 10 :: rest) (front.length + 2)
      (t.endLine front.length (front.length + 2)) := by
  apply scanFrom_of_behind? t (List.cons_ne_nil _ _)
  simp [behind?]

theorem scanFrom_single (single : ¬ (b = 13 ∧ rest.head? = some 10)) (ends : b = 13 ∨ b = 10) :
    scanFrom (front ++ b :: rest) front.length t =
      scanFrom (front ++ b :: rest) (front.length + 1)
        (t.endLine front.length (front.length + 1)) := by
  apply scanFrom_of_behind? t (List.cons_ne_nil _ _)
  have here : (front ++ b :: rest)[front.length]? = some b := by simp
  have next : (front ++ b :: rest)[front.length + 1]? = rest.head? := by
    rw [List.getElem?_append_right (by omega), List.head?_eq_getElem?]
    simp
  rw [behind?, here, next]
  rcases ends with rfl | rfl
  · have other : rest.head? ≠ some 10 := fun pair => single ⟨rfl, pair⟩
    simp [other]
  · rfl

theorem scanFrom_plain (inside : ¬ (b = 13 ∨ b = 10)) :
    scanFrom (front ++ b :: rest) front.length t =
      scanFrom (front ++ b :: rest) (front.length + 1) t := by
  have here : (front ++ b :: rest)[front.length]? = some b := by simp
  have none : behind? (front ++ b :: rest) front.length = none := by
    rw [behind?, here]
    split
    · next same => exact absurd (Or.inl (Option.some.inj same)) inside
    · next same => exact absurd (Or.inr (Option.some.inj same)) inside
    · rfl
  rw [LineTable.scanFrom, if_pos (by simp), LineTable.step, none]

end Steps

/-- What the arrays hold when the cursor goes on from an offset: what they held, and the lines
that follow. -/
theorem close_scanFrom (offset start : Nat) (front bytes : List UInt8)
    (reached : front.length = offset) (starts stops : List Nat) :
    (scanFrom (front ++ bytes) offset ⟨(starts ++ [start]).toArray, stops.toArray⟩).close
        (front ++ bytes).length =
      ⟨(starts ++ (LineSpan.scan offset start bytes).map LineSpan.start).toArray,
        (stops ++ (LineSpan.scan offset start bytes).map LineSpan.stop).toArray⟩ := by
  fun_induction LineSpan.scan offset start bytes generalizing front starts stops with
  | case1 offset start =>
      subst reached
      rw [LineTable.scanFrom, List.append_nil, if_neg (Nat.lt_irrefl _), close, List.push_toArray]
      rfl
  | case2 offset start rest ih =>
      subst reached
      have later := ih (front ++ [13, 10]) List.length_append (starts ++ [start])
        (stops ++ [front.length])
      rw [scanFrom_pair, endLine, List.push_toArray, List.push_toArray]
      simpa using later
  | case3 offset start b rest pair ends ih =>
      subst reached
      have later := ih (front ++ [b]) List.length_append (starts ++ [start])
        (stops ++ [front.length])
      rw [scanFrom_single _ (Terminator.single_of_not_pair pair) ends, endLine, List.push_toArray,
        List.push_toArray]
      simpa using later
  | case4 offset start b rest pair inside ih =>
      subst reached
      have later := ih (front ++ [b]) List.length_append starts stops
      rw [scanFrom_plain _ inside]
      simpa using later

/-- The two arrays hold the lines of the index. -/
theorem ofContent_eq (content : List UInt8) :
    ofContent content =
      ⟨((LineIndex.ofContent content).lines.map LineSpan.start).toArray,
        ((LineIndex.ofContent content).lines.map LineSpan.stop).toArray⟩ :=
  close_scanFrom 0 0 [] content rfl [] []

/-- Each step of the look-up stays in its bounds, and it gives the position of the index. -/
theorem positionAt?_ofContent (content : List UInt8) (offset : Nat) :
    (ofContent content).positionAt? content offset =
      some ((LineIndex.ofContent content).positionAt offset) := by
  have covers := covers_ofContent content
  obtain ⟨number, start, stop, count, here, there, reached⟩ :=
    covers.exists_line (min offset content.length)
  have line := covers.line number start stop here there
  have bounds : start ≤ min (min offset content.length) stop ∧
      min (min offset content.length) stop ≤ content.length := by
    have ordered := line.ordered
    omega
  have checked : (ofContent content).positionAt? content offset =
      some ⟨number.toUInt32, (Utf8.decodeLossy (slice content start
        (min (min offset content.length) stop))).length.toUInt32⟩ := by
    simp only [positionAt?, count, Nat.psub, Nat.ppred, here, there, slice?, if_pos bounds,
      Option.bind_eq_bind, Option.bind_some]
  obtain ⟨span, found, rfl, rfl⟩ : ∃ span,
      (LineIndex.ofContent content).lines[number]? = some span ∧
        span.start = start ∧ span.stop = stop := by
    rw [ofContent_eq] at here there
    simp only [List.getElem?_toArray, List.getElem?_map, Option.map_eq_some_iff] at here there
    obtain ⟨span, found, start'⟩ := here
    obtain ⟨span', found', stop'⟩ := there
    rw [found, Option.some_inj] at found'
    exact ⟨span, found, start', found' ▸ stop'⟩
  have last : (LineIndex.ofContent content).lineAt (min offset content.length) = number := by
    rw [ofContent_eq, List.takeWhile_map, List.length_map] at count
    exact Nat.sub_eq_of_eq_add count
  rw [checked, LineIndex.positionAt_of_line last found]
  rfl

/-- The two arrays cover each content, and they hold the lines of the index. A position can be
looked up at each offset without leaving them or the content, and is the one that the index
gives. -/
theorem ofContent_covers (content : List UInt8) :
    Covers content (ofContent content) ∧
    (ofContent content).starts.toList = (LineIndex.ofContent content).lines.map LineSpan.start ∧
    (ofContent content).stops.toList = (LineIndex.ofContent content).lines.map LineSpan.stop ∧
    ∀ offset, (ofContent content).positionAt? content offset =
      some ((LineIndex.ofContent content).positionAt offset) := by
  refine ⟨covers_ofContent content, ?_, ?_, positionAt?_ofContent content⟩
  · rw [ofContent_eq]
  · rw [ofContent_eq]

end LineTable

end LintReport
