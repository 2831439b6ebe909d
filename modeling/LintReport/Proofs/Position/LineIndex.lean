import LintReport.Proofs.Position.Terminator
import LintReport.Proofs.Text.Utf8

set_option autoImplicit false

/- A line index finds what counting terminators from the left finds. -/
namespace LintReport

namespace Terminator

/-- The terminators that end at or before an offset. -/
def upTo (offset : Nat) (ts : List Terminator) : List Terminator :=
  ts.filter fun t => decide (t.stop ≤ offset)

/-- The terminators that end behind an offset. -/
def beyond (offset : Nat) (ts : List Terminator) : List Terminator :=
  ts.filter fun t => decide (offset < t.stop)

/-- Where the first of some terminators starts, or `stop` if there is none. -/
def firstStart (stop : Nat) (ts : List Terminator) : Nat :=
  (ts.head?.map Terminator.start).getD stop

/-- Terminators that end one behind the other. -/
def Ascending (ts : List Terminator) : Prop := ts.Pairwise fun t u => t.stop < u.stop

theorem scan_ascending (offset : Nat) (bytes : List UInt8) : Ascending (scan offset bytes) := by
  refine (scan_pairwise offset bytes).imp_of_mem ?_
  intro t u _ member follows
  have inside := (scan_within offset bytes u member).2.1
  omega

theorem upTo_cons_of_le {offset : Nat} {t : Terminator} (ts : List Terminator)
    (reached : t.stop ≤ offset) : upTo offset (t :: ts) = t :: upTo offset ts := by
  rw [upTo, List.filter_cons_of_pos (by simpa using reached), upTo]

theorem beyond_cons_of_le {offset : Nat} {t : Terminator} (ts : List Terminator)
    (reached : t.stop ≤ offset) : beyond offset (t :: ts) = beyond offset ts := by
  rw [beyond, List.filter_cons_of_neg (by simpa using reached), beyond]

/-- Behind the first terminator that an offset does not reach there is no other that it
reaches. -/
theorem upTo_cons_of_lt {offset : Nat} {t : Terminator} {ts : List Terminator}
    (ascending : Ascending (t :: ts)) (ahead : offset < t.stop) :
    upTo offset (t :: ts) = [] := by
  unfold upTo
  rw [List.filter_eq_nil_iff]
  intro u member
  have follows : t.stop ≤ u.stop := by
    rcases List.mem_cons.mp member with rfl | later
    · exact Nat.le_refl _
    · exact Nat.le_of_lt ((List.pairwise_cons.mp ascending).1 u later)
  simp only [decide_eq_true_eq]
  omega

theorem firstStart_beyond_cons_of_lt {offset : Nat} {t : Terminator} (ts : List Terminator)
    (stop : Nat) (ahead : offset < t.stop) :
    firstStart stop (beyond offset (t :: ts)) = t.start := by
  rw [beyond, List.filter_cons_of_pos (by simpa using ahead)]
  rfl

theorem parts_of_reached {offset : Nat} {ts : List Terminator}
    (reached : ∀ t ∈ ts, t.stop ≤ offset) : upTo offset ts = ts ∧ beyond offset ts = [] := by
  constructor
  · rw [upTo, List.filter_eq_self]
    intro t member
    simpa using reached t member
  · rw [beyond, List.filter_eq_nil_iff]
    intro t member
    simpa using reached t member

theorem parts_of_ahead {offset : Nat} {ts : List Terminator}
    (ahead : ∀ t ∈ ts, offset < t.stop) : upTo offset ts = [] ∧ beyond offset ts = ts := by
  constructor
  · rw [upTo, List.filter_eq_nil_iff]
    intro t member
    simpa using ahead t member
  · rw [beyond, List.filter_eq_self]
    intro t member
    simpa using ahead t member

theorem lastStop_le {start bound : Nat} {ts : List Terminator} (bounded : start ≤ bound)
    (reached : ∀ t ∈ ts, t.stop ≤ bound) : lastStop start ts ≤ bound := by
  induction ts generalizing start with
  | nil => exact bounded
  | cons t ts ih =>
      rw [lastStop_cons]
      exact ih (reached t List.mem_cons_self) fun u later => reached u (List.mem_cons_of_mem t later)

theorem le_firstStart {stop : Nat} {ts : List Terminator} (ahead : ∀ t ∈ ts, stop ≤ t.start) :
    stop ≤ firstStart stop ts := by
  cases ts with
  | nil => exact Nat.le_refl stop
  | cons t ts => exact ahead t List.mem_cons_self

end Terminator

namespace LineSpan

open Terminator (upTo beyond firstStart lastStop Ascending)

theorem takeWhile_between_of_lt (offset start stop : Nat) (ts : List Terminator)
    (ahead : offset < start) :
    (between start ts stop).takeWhile (fun l => decide (l.start ≤ offset)) = [] := by
  cases ts <;> simp [between, Nat.not_le.mpr ahead]

/-- The lines that start no later than an offset are one more than the terminators in
front of it. -/
theorem length_takeWhile_between (offset start stop : Nat) (ts : List Terminator)
    (ascending : Ascending ts) (reached : start ≤ offset) :
    ((between start ts stop).takeWhile fun l => decide (l.start ≤ offset)).length =
      (upTo offset ts).length + 1 := by
  induction ts generalizing start with
  | nil => simp [between, upTo, reached]
  | cons t ts ih =>
      rw [between, List.takeWhile_cons_of_pos (by simpa using reached), List.length_cons]
      by_cases passed : t.stop ≤ offset
      · rw [ih t.stop ascending.of_cons passed, Terminator.upTo_cons_of_le ts passed,
          List.length_cons]
      · have ahead : offset < t.stop := by omega
        rw [takeWhile_between_of_lt offset t.stop stop ts ahead,
          Terminator.upTo_cons_of_lt ascending ahead, List.length_nil, List.length_nil]

/-- The last of those lines reaches from the terminator in front of the offset to the one
behind it. -/
theorem getElem?_between (offset start stop : Nat) (ts : List Terminator)
    (ascending : Ascending ts) :
    (between start ts stop)[(upTo offset ts).length]? =
      some ⟨lastStop start (upTo offset ts), firstStart stop (beyond offset ts)⟩ := by
  induction ts generalizing start with
  | nil => rfl
  | cons t ts ih =>
      rw [between]
      by_cases passed : t.stop ≤ offset
      · rw [Terminator.upTo_cons_of_le ts passed, Terminator.beyond_cons_of_le ts passed,
          List.length_cons, List.getElem?_cons_succ, ih t.stop ascending.of_cons,
          Terminator.lastStop_cons]
      · have ahead : offset < t.stop := by omega
        rw [Terminator.upTo_cons_of_lt ascending ahead,
          Terminator.firstStart_beyond_cons_of_lt ts stop ahead]
        rfl

end LineSpan

/-- Line and character as plain numbers. -/
def Position.coordinates (p : Position) : Nat × Nat := (p.line.toNat, p.character.toNat)

namespace LineIndex

open Terminator (upTo beyond firstStart lastStop)

/-- Line and character of a byte offset by definition: how many terminators end at or
before it, and how many characters lenient reading finds between the last of them and
the offset, or the next terminator if that comes first. -/
def lineAndColumn (content : List UInt8) (offset : Nat) : Nat × Nat :=
  let inside := min offset content.length
  let terminators := Terminator.scan 0 content
  let start := lastStop 0 (upTo inside terminators)
  let stop := min inside (firstStart inside (beyond inside terminators))
  ((upTo inside terminators).length,
    (Utf8.decodeLossy ((content.drop start).take (stop - start))).length)

theorem min_firstStart (offset stop : Nat) (ts : List Terminator) (inside : offset ≤ stop) :
    min offset (firstStart stop ts) = min offset (firstStart offset ts) := by
  cases ts with
  | nil =>
      change min offset stop = min offset offset
      omega
  | cons t ts => rfl

theorem positionAt_of_line {index : LineIndex} {offset number : Nat} {line : LineSpan}
    (last : index.lineAt (min offset index.content.length) = number)
    (found : index.lines[number]? = some line) :
    index.positionAt offset =
      ⟨number.toUInt32, (Utf8.decodeLossy (index.slice line.start
        (min (min offset index.content.length) line.stop))).length.toUInt32⟩ := by
  unfold positionAt
  simp only [last, found]

theorem positionAt_eq (content : List UInt8) (offset : Nat) :
    (ofContent content).positionAt offset =
      ⟨(lineAndColumn content offset).1.toUInt32, (lineAndColumn content offset).2.toUInt32⟩ := by
  have ascending := Terminator.scan_ascending 0 content
  have number : (ofContent content).lineAt (min offset content.length) =
      (upTo (min offset content.length) (Terminator.scan 0 content)).length := by
    rw [lineAt, ofContent, LineSpan.scan_eq_between,
      LineSpan.length_takeWhile_between _ _ _ _ ascending (Nat.zero_le _), Nat.add_sub_cancel]
  have line := LineSpan.getElem?_between (min offset content.length) 0 (0 + content.length) _
    ascending
  rw [← LineSpan.scan_eq_between] at line
  have bounded : min offset content.length ≤ 0 + content.length := by omega
  rw [positionAt_of_line number line]
  simp only [ofContent, slice, lineAndColumn, min_firstStart _ _ _ bounded]

/-- Where no pair is cut, what follows an offset does not count. -/
theorem lineAndColumn_append (front back : List UInt8) (apart : Terminator.Apart 13 10 front back) :
    lineAndColumn (front ++ back) front.length =
      ((Terminator.scan 0 front).length,
        (Utf8.decodeLossy (front.drop (lastStop 0 (Terminator.scan 0 front)))).length) := by
  have here : min front.length (front ++ back).length = front.length := by
    rw [List.length_append]
    omega
  have reached : ∀ t ∈ Terminator.scan 0 front, t.stop ≤ front.length := by
    intro t member
    have inside := (Terminator.scan_within 0 front t member).2.2
    omega
  have later : ∀ t ∈ Terminator.scan (0 + front.length) back,
      front.length ≤ t.start ∧ front.length < t.stop := by
    intro t member
    have inside := Terminator.scan_within (0 + front.length) back t member
    unfold Terminator.Within at inside
    omega
  obtain ⟨all, none⟩ := Terminator.parts_of_reached reached
  obtain ⟨skipped, rest⟩ := Terminator.parts_of_ahead fun t member => (later t member).2
  have start := Terminator.lastStop_le (Nat.zero_le front.length) reached
  have next := Terminator.le_firstStart fun t member => (later t member).1
  have before : upTo front.length (Terminator.scan 0 (front ++ back)) =
      Terminator.scan 0 front := by
    rw [Terminator.scan_append 0 front back apart, upTo, List.filter_append, ← upTo, ← upTo, all,
      skipped, List.append_nil]
  have after : beyond front.length (Terminator.scan 0 (front ++ back)) =
      Terminator.scan (0 + front.length) back := by
    rw [Terminator.scan_append 0 front back apart, beyond, List.filter_append, ← beyond, ← beyond,
      none, rest, List.nil_append]
  have bytes : ((front ++ back).drop (lastStop 0 (Terminator.scan 0 front))).take
      (front.length - lastStop 0 (Terminator.scan 0 front)) =
        front.drop (lastStop 0 (Terminator.scan 0 front)) := by
    rw [List.drop_append_of_le_length start, List.take_left' List.length_drop]
  simp only [lineAndColumn, here, before, after, Nat.min_eq_left next, bytes]

theorem lineAndColumn_le (content : List UInt8) (offset : Nat) :
    (lineAndColumn content offset).1 ≤ content.length ∧
      (lineAndColumn content offset).2 ≤ content.length := by
  constructor
  · exact Nat.le_trans (List.length_filter_le _ _) (Terminator.length_scan_le 0 content)
  · simp only [lineAndColumn, Utf8.length_decodeLossy]
    refine Nat.le_trans (Utf8.length_pieces_le _) ?_
    simp only [List.length_take, List.length_drop]
    omega

/-- No number is cut off as long as the content is shorter than 4 GiB. -/
theorem coordinates_positionAt (content : List UInt8) (offset : Nat)
    (short : content.length < 2 ^ 32) :
    ((ofContent content).positionAt offset).coordinates = lineAndColumn content offset := by
  obtain ⟨line, character⟩ := lineAndColumn_le content offset
  rw [positionAt_eq, Position.coordinates, Prod.mk.injEq]
  constructor
  · exact Nat.mod_eq_of_lt (by omega)
  · exact Nat.mod_eq_of_lt (by omega)

end LineIndex

end LintReport
