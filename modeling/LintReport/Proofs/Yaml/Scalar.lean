import LintReport.Proofs.Yaml.Written

set_option autoImplicit false

/- Plain and quoted scalars of one line are read back as the text that they were written
for, whatever follows. -/
namespace LintReport.Yaml

theorem Place.next_advance (p : Place) (n : Nat) : p.next.advance n = p.advance (n + 1) := by
  simp only [Place.next, Place.advance, Place.mk.injEq, true_and]
  omega

/-- There is no white space in front of `s`. -/
def Bare (s : List Char) : Prop :=
  ∀ c ∈ s.head?, isBreak c = false ∧ isSpace c = false ∧ c ≠ '#'

theorem bare_cons {c : Char} (bare : isBreak c = false ∧ isSpace c = false ∧ c ≠ '#')
    (rest : List Char) : Bare (c :: rest) := by
  rintro _ ⟨⟩
  exact bare

theorem isSpace_of_isAlphanum {c : Char} (word : c.isAlphanum = true) : isSpace c = false := by
  have space := ne_of_isAlphanum word (d := ' ') (by decide)
  have tab := ne_of_isAlphanum word (d := '\t') (by decide)
  simp [isSpace, space, tab]

theorem bare_of_solid {s : List Char} (solid : Written.Solid s) : Bare s := by
  obtain ⟨c, rest, rfl, word | rfl⟩ := solid
  · exact bare_cons ⟨isBreak_of_isAlphanum word, isSpace_of_isAlphanum word,
      ne_of_isAlphanum word (by decide)⟩ rest
  · exact bare_cons (by decide) rest

/-- Letters and digits belong to a plain scalar. -/
theorem scanPlain_word (indent : Int) {word : List Char}
    (letters : ∀ c ∈ word, c.isAlphanum = true) (text : List Char) (place : Place)
    (rest : List Char) : scanPlain false indent text Gap.none place (word ++ rest) =
      scanPlain false indent (word.reverse ++ text) Gap.none (place.advance word.length) rest := by
  induction word generalizing text place with
  | nil => rfl
  | cons c word ih =>
      have letter := letters c List.mem_cons_self
      have colon := ne_of_isAlphanum letter (d := ':') (by decide)
      have others : ∀ d ∈ word, d.isAlphanum = true :=
        fun d member => letters d (List.mem_cons_of_mem c member)
      have step : scanPlain false indent text Gap.none place (c :: (word ++ rest)) =
          scanPlain false indent (c :: text) Gap.none place.next (word ++ rest) := by
        rw [scanPlain, isBreak_of_isAlphanum letter, isSpace_of_isAlphanum letter]
        simp [endsPlainAfterGap, Gap.isEmpty, Gap.none, isStrayColon, endsPlain, colon, Gap.text]
      rw [List.cons_append, step, ih others, Place.next_advance, List.reverse_cons,
        List.append_assoc, List.singleton_append, List.length_cons]

/-- A key is a plain scalar that its colon ends. -/
theorem scanPlain_key (indent : Int) (key : Key) (place : Place) {after : List Char}
    (gap : atGap after = true) :
    scanPlain false indent [] Gap.none place (key.name.toList ++ ':' :: after) =
      some ⟨key.name.toList.reverse, false,
        ⟨place.advance key.name.toList.length, ':' :: after⟩⟩ := by
  have colon : isBreak ':' = false ∧ isSpace ':' = false := by decide
  rw [scanPlain_word indent key.word, List.append_nil, scanPlain, colon.1, colon.2]
  simp [endsPlainAfterGap, Gap.isEmpty, Gap.none, isStrayColon, endsPlain, gap]

theorem scanPlain_spaces {indent : Int} (text : List Char) {gap : Gap} (folded : gap.folded = true)
    (place : Place) (n : Nat) (rest : List Char) :
    scanPlain false indent text gap place (List.replicate n ' ' ++ rest) =
      scanPlain false indent text gap (place.advance n) rest := by
  induction n generalizing place with
  | zero => rfl
  | succ n ih =>
      have same : gap.addSpace ' ' = gap := by rw [Gap.addSpace, folded, if_pos rfl]
      have space : isBreak ' ' = false ∧ isSpace ' ' = true := by decide
      rw [List.replicate_succ, List.cons_append, scanPlain, space.1, space.2, if_neg (by decide),
        if_pos rfl, if_neg (by simp), same, ih, Place.next_advance]

/-- A plain scalar of letters and digits ends at a line of less than its indentation, and the
white space before that line is passed. -/
theorem scanPlain_ended {indent : Int} {word : List Char}
    (letters : ∀ c ∈ word, c.isAlphanum = true) (place : Place) {column : Nat}
    (shallow : (column : Int) < indent) {more : List Char} (bare : Bare more) :
    ∃ after : Place, after.column = column ∧
      scanPlain false indent [] Gap.none place (word ++ (Written.newline column ++ more)) =
        some ⟨word.reverse, true, ⟨after, more⟩⟩ := by
  have feed : isBreak '\n' = true := by decide
  refine ⟨(place.advance word.length).nextLine.advance column, by simp [Place.nextLine,
    Place.advance], ?_⟩
  rw [scanPlain_word indent letters, List.append_nil, Written.newline, List.cons_append, scanPlain,
    feed, if_pos rfl, if_neg (by simp), scanPlain_spaces _ rfl]
  cases more with
  | nil => rfl
  | cons c rest =>
      obtain ⟨inside, solid, -⟩ := bare c rfl
      have ends : endsPlainAfterGap false indent (Gap.none.addBreak '\n')
          ((place.advance word.length).nextLine.advance column) (c :: rest) = true := by
        have here : ((place.advance word.length).nextLine.advance column).column = column := by
          simp [Place.nextLine, Place.advance]
        simp [endsPlainAfterGap, Gap.isEmpty, Gap.addBreak, Gap.none, here, shallow]
      rw [scanPlain, inside, solid, if_neg (by decide), if_neg (by decide), if_pos ends]
      rfl

/-- White space inside a line of a quoted scalar. -/
def spaced (spaces : List Char) : Gap := ⟨false, spaces, none, []⟩

section

variable (text spaces rest : List Char) {place : Place} {c : Char}

theorem scanSingle_doubled : scanSingle text (spaced spaces) place ('\'' :: '\'' :: rest) =
    scanSingle ('\'' :: (spaces.reverse ++ text)) (spaced []) (place.advance 2) rest := by
  rw [scanSingle]
  rfl

theorem scanSingle_close (behind : 0 < place.column) (ends : rest.head? ≠ some '\'') :
    scanSingle text (spaced spaces) place ('\'' :: rest) =
      some ⟨spaces.reverse ++ text, false, ⟨place.next, rest⟩⟩ := by
  have mark : isBreak '\'' = false ∧ isSpace '\'' = false := by decide
  rw [scanSingle, mark.1, mark.2, if_neg (by decide), if_neg (by decide),
    if_neg fun start => absurd start.1 (by omega), if_pos rfl]
  · rfl
  · rintro others - rfl
    exact ends rfl

theorem scanSingle_space (space : isSpace c = true) :
    scanSingle text (spaced spaces) place (c :: rest) =
      scanSingle text (spaced (spaces ++ [c])) place.next rest := by
  have inside : isBreak c = false ∧ c ≠ '\'' := by
    rcases Bool.or_eq_true_iff.mp space with blank | tab
    · exact of_decide_eq_true blank ▸ by decide
    · exact of_decide_eq_true tab ▸ by decide
  rw [scanSingle, inside.1, if_neg (by decide), if_pos space]
  · rfl
  · rintro _ rfl
    exact absurd rfl inside.2

theorem scanSingle_solid (inside : isBreak c = false) (solid : isSpace c = false)
    (other : c ≠ '\'') (behind : 0 < place.column) :
    scanSingle text (spaced spaces) place (c :: rest) =
      scanSingle (c :: (spaces.reverse ++ text)) (spaced []) place.next rest := by
  rw [scanSingle, inside, solid, if_neg (by decide), if_neg (by decide),
    if_neg fun start => absurd start.1 (by omega), if_neg other]
  · rfl
  · rintro _ rfl
    exact absurd rfl other

end

/-- A quoted scalar of one line, with `spaces` before its next character. -/
theorem scanSingle_inline {s : List Char} (inline : ∀ c ∈ s, isInline c = true)
    (text spaces : List Char) {place : Place} (behind : 0 < place.column) {rest : List Char}
    (ends : rest.head? ≠ some '\'') : ∃ after,
      scanSingle text (spaced spaces) place (Written.doubled s ++ '\'' :: rest) =
        some ⟨s.reverse ++ (spaces.reverse ++ text), false, ⟨after, rest⟩⟩ := by
  induction s generalizing text spaces place with
  | nil => exact ⟨place.next, scanSingle_close text spaces rest behind ends⟩
  | cons c s ih =>
      have here := inline c List.mem_cons_self
      have others : ∀ d ∈ s, isInline d = true :=
        fun d member => inline d (List.mem_cons_of_mem c member)
      have next : 0 < place.next.column := Nat.succ_pos place.column
      rw [Written.doubled_cons, List.append_assoc, List.reverse_cons, List.append_assoc,
        List.singleton_append]
      by_cases mark : c = '\''
      · have behind' : 0 < (place.advance 2).column := Nat.succ_pos _
        obtain ⟨after, read⟩ := ih others (c :: (spaces.reverse ++ text)) [] behind'
        refine ⟨after, ?_⟩
        rw [mark] at read ⊢
        exact (scanSingle_doubled text spaces _).trans read
      · rw [if_neg mark, List.singleton_append]
        cases space : isSpace c with
        | true =>
            obtain ⟨after, read⟩ := ih others text (spaces ++ [c]) next
            refine ⟨after, ?_⟩
            rw [scanSingle_space text spaces _ space, read, List.reverse_append]
            rfl
        | false =>
            obtain ⟨after, read⟩ := ih others (c :: (spaces.reverse ++ text)) [] next
            have unbroken : isBreak c = false := by
              simpa using (Bool.and_eq_true_iff.mp here).2
            refine ⟨after, ?_⟩
            rw [scanSingle_solid text spaces _ unbroken space mark behind]
            exact read

end LintReport.Yaml
