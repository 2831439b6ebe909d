import LintReport.Output.Message
import LintReport.Proofs.Text.Lines
import Mathlib.Data.List.DropRight
import Mathlib.Data.Set.Basic

set_option autoImplicit false

/- Which lines are read as headers. A header owns the two lines behind it, so whether a line is
read as one depends only on the two lines in front of it. -/
namespace LintReport

theorem Text.trimEnd_trimEnd (s : List Char) : Text.trimEnd (Text.trimEnd s) = Text.trimEnd s := by
  simp only [Text.trimEnd, List.reverse_reverse, List.dropWhile_idempotent]

namespace CompilerMessage

variable {lines : List (List Char)}

/-- Whether a line announces a message and has two lines behind it. -/
def Announces (lines : List (List Char)) (i : Nat) : Prop :=
  i + 2 < lines.length ∧ ∃ message, lines[i]?.bind ofHeader? = some message

/-- A choice of places for headers: all lines that announce a message, but those that
belong to a header in front of them. -/
def Headers (lines : List (List Char)) (places : Set Nat) : Prop :=
  ∀ i, i ∈ places ↔ Announces lines i ∧ ∀ j ∈ places, j + 1 ≠ i ∧ j + 2 ≠ i

/-- There is one such choice only: each place depends on smaller ones. -/
theorem Headers.unique {places others : Set Nat} (here : Headers lines places)
    (there : Headers lines others) : others = places := by
  ext i
  induction i using Nat.strongRecOn with
  | ind i ih =>
      rw [here i, there i]
      refine and_congr_right fun _ => ⟨?_, ?_⟩
      · intro free j member
        constructor <;> intro owned
        · exact (free j ((ih j (by omega)).mpr member)).1 owned
        · exact (free j ((ih j (by omega)).mpr member)).2 owned
      · intro free j member
        constructor <;> intro owned
        · exact (free j ((ih j (by omega)).mp member)).1 owned
        · exact (free j ((ih j (by omega)).mp member)).2 owned

/-- The places of the lines that are read as headers. -/
def headerPlaces : List (List Char) → List Nat
  | header :: first :: second :: rest =>
      match ofHeader? header with
      | some _ => 0 :: (headerPlaces rest).map (· + 3)
      | none => (headerPlaces (first :: second :: rest)).map (· + 1)
  | _ => []

theorem announces_zero {header first second : List Char} {rest : List (List Char)}
    {message : CompilerMessage} (read : ofHeader? header = some message) :
    Announces (header :: first :: second :: rest) 0 :=
  ⟨by simp, message, read⟩

@[simp] theorem announces_succ (line : List Char) (lines : List (List Char)) (i : Nat) :
    Announces (line :: lines) (i + 1) ↔ Announces lines i := by
  unfold Announces
  rw [List.length_cons, List.getElem?_cons_succ]
  exact and_congr_left' (by omega)

theorem not_announces_of_length_le {i : Nat} (short : lines.length ≤ 2) :
    ¬ Announces lines i := by
  rintro ⟨inside, _⟩
  omega

theorem headers_headerPlaces (lines : List (List Char)) :
    Headers lines {i | i ∈ headerPlaces lines} := by
  intro i
  simp only [Set.mem_ofPred_eq]
  fun_induction headerPlaces lines generalizing i with
  | case1 header first second rest message read ih =>
      match i with
      | 0 => simp [announces_zero read]
      | 1 => simp
      | 2 => simp
      | i + 3 => simp [ih i]
  | case2 header first second rest read ih =>
      match i with
      | 0 => simp [Announces, read]
      | i + 1 => simp [ih i]
  | case3 lines other =>
      have short : lines.length ≤ 2 := by
        match lines, other with
        | [], _ | [_], _ | [_, _], _ => simp
        | header :: first :: second :: rest, other => exact absurd rfl (other _ _ _ _)
      simp [not_announces_of_length_le short]

theorem pairwise_headerPlaces (lines : List (List Char)) :
    (headerPlaces lines).Pairwise (· < ·) := by
  fun_induction headerPlaces lines with
  | case1 header first second rest message read ih =>
      refine List.Pairwise.cons ?_ (List.pairwise_map.mpr (ih.imp (by omega)))
      intro i member
      obtain ⟨j, _, rfl⟩ := List.mem_map.mp member
      omega
  | case2 header first second rest read ih =>
      exact List.pairwise_map.mpr (ih.imp (by omega))
  | case3 => exact List.Pairwise.nil

theorem map_some_ofLines (lines : List (List Char)) :
    (ofLines lines).map some = (headerPlaces lines).map fun i => lines[i]?.bind ofHeader? := by
  fun_induction headerPlaces lines with
  | case1 header first second rest message read ih =>
      rw [ofLines, read]
      simp [ih, read]
  | case2 header first second rest read ih =>
      rw [ofLines, read]
      simp [ih]
  | case3 lines other =>
      rw [ofLines]
      · rfl
      · exact other

theorem exists_line_of_mem_ofLines {message : CompilerMessage} (member : message ∈ ofLines lines) :
    ∃ line ∈ lines, ofHeader? line = some message := by
  have listed : some message ∈ (ofLines lines).map some := List.mem_map_of_mem member
  rw [map_some_ofLines] at listed
  obtain ⟨i, _, read⟩ := List.mem_map.mp listed
  obtain ⟨line, found, read⟩ := Option.bind_eq_some_iff.mp read
  exact ⟨line, List.mem_of_getElem? found, read⟩

/-- The last line can only belong to a header, so what it says does not count, and lines behind
it take nothing back. -/
theorem ofLines_continued (last last' : List Char) (more : List (List Char)) :
    (front : List (List Char)) → ofLines (front ++ [last]) <+: ofLines (front ++ last' :: more)
  | [] => List.nil_prefix
  | [_] => List.nil_prefix
  | [header, first] => by
      simp only [List.cons_append, List.nil_append, ofLines]
      cases ofHeader? header with
      | none => exact List.nil_prefix
      | some message => exact (List.prefix_cons_inj message).mpr List.nil_prefix
  | header :: first :: second :: front => by
      simp only [List.cons_append, ofLines]
      cases ofHeader? header with
      | none => exact ofLines_continued last last' more (first :: second :: front)
      | some message =>
          exact (List.prefix_cons_inj message).mpr (ofLines_continued last last' more front)

theorem scan_continued {text longer : List Char}
    (continued : Text.Continues (Text.wholeLines text) (Text.wholeLines longer)) :
    scan text <+: scan longer := by
  unfold scan Text.lines
  rcases continued with empty | ⟨front, last, last', more, split, goes, _⟩
  · rw [empty]
    exact List.nil_prefix
  · rw [split, goes, List.map_append, List.map_append]
    exact ofLines_continued _ _ _ _

/-- The severity of a message is a word without blanks at its end. -/
theorem trimEnd_severity {line : List Char} {message : CompilerMessage}
    (read : ofHeader? line = some message) :
    Text.trimEnd message.severity.toList = message.severity.toList := by
  unfold ofHeader? at read
  split at read
  · simp at read
  · split at read
    · simp at read
    · split at read
      · simp at read
      · cases read
        rw [String.toList_ofList, Text.trim, Text.trimEnd_trimEnd]

theorem classify_severity {line : List Char} {message : CompilerMessage}
    (read : ofHeader? line = some message) :
    Severity.classify message.severity = .error ↔ "error".toList <:+ message.severity.toList := by
  unfold Severity.classify
  rw [trimEnd_severity read, ← List.isSuffixOf_iff_suffix]
  split
  · next ends => exact iff_of_true rfl ends
  · next other => exact iff_of_false (by simp) other

/-- The messages of a text are those of its headers, in order, and no other choice of headers
is possible. Its errors are the messages whose severity ends in that word. -/
theorem scan_headers (text : List Char) : ∃ places : List Nat,
    places.Pairwise (· < ·) ∧
    Headers (Text.lines text) {i | i ∈ places} ∧
    (∀ others, Headers (Text.lines text) others → others = {i | i ∈ places}) ∧
    (scan text).map some = places.map (fun i => (Text.lines text)[i]?.bind ofHeader?) ∧
    errors text = (scan text).filter fun m => decide ("error".toList <:+ m.severity.toList) := by
  have chosen := headers_headerPlaces (Text.lines text)
  refine ⟨headerPlaces (Text.lines text), pairwise_headerPlaces _, chosen,
    fun others => chosen.unique, map_some_ofLines _, ?_⟩
  refine List.filter_congr fun message member => ?_
  obtain ⟨line, _, read⟩ := exists_line_of_mem_ofLines member
  exact decide_eq_decide.mpr (classify_severity read)

end CompilerMessage

end LintReport
