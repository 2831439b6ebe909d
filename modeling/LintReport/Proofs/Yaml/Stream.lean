import LintReport.Proofs.Yaml.Lexer

set_option autoImplicit false

/- The tokens of a written document. What a value, a record or a sequence leads to is stated for
any text behind its last line, and for any collections that are open around it. -/
namespace LintReport.Yaml

namespace Lexer

/-! Keys, items and scalars. -/

/-- What the first token at `column` opens: nothing when the innermost collection is there,
and a collection that `start` begins when all are less deep. -/
inductive Opens (start : Token) (column : Nat) : List Nat → List Nat → List Token → Prop
  | already (outer : List Nat) : Opens start column (column :: outer) outer []
  | deeper {outer : List Nat} (less : ∀ i ∈ outer.head?, i < column) :
      Opens start column outer outer [start]

theorem Opens.covers {start : Token} {column : Nat} {stack outer : List Nat}
    {opening : List Token} (opens : Opens start column stack outer opening) :
    Covers column stack := by
  cases opens with
  | already => rintro _ ⟨⟩; exact Nat.le_refl column
  | deeper less => exact fun i first => Nat.le_of_lt (less i first)

theorem indent_lt {l : Lexer} {column : Nat} (less : ∀ i ∈ l.indents.head?, i < column) :
    l.indent < (column : Int) := by
  rw [indent]
  split
  · omega
  · next i rest equal =>
      have below : i < column := less i (by rw [equal]; rfl)
      omega

theorem Opens.level {start : Token} {column : Nat} {stack outer : List Nat}
    {opening : List Token} (opens : Opens start column stack outer opening) (l : Lexer)
    (equal : l.indents = stack) :
    (decide (l.indent < (column : Int)) = false ∧ opening = [] ∧ stack = column :: outer) ∨
      (decide (l.indent < (column : Int)) = true ∧ opening = [start] ∧ stack = outer) := by
  cases opens with
  | already =>
      refine Or.inl ⟨?_, rfl, rfl⟩
      rw [indent, equal]
      simp
  | deeper less => exact Or.inr ⟨decide_eq_true (indent_lt (equal ▸ less)), rfl, rfl⟩

theorem fetchHere_word {l : Lexer} {c : Char} (rest : List Char)
    (here : l.cursor.rest = c :: rest) (word : c.isAlphanum = true) :
    fetchHere l = fetchPlain l := by
  have other : ∀ d : Char, d.isAlphanum = false → c ≠ d := fun d => ne_of_isAlphanum word
  have starts : startsPlain l.flow c rest = true := by
    simp +decide [startsPlain, isSpace_of_isAlphanum word, isBreak_of_isAlphanum word, other]
  rw [fetchHere, here]
  simp +decide [atMarker_of_ne, starts, other]

theorem fetchHere_colon {l : Lexer} {rest : List Char} (here : l.cursor.rest = ':' :: rest)
    (gap : atGap rest = true) : fetchHere l = fetchValue l := by
  rw [fetchHere, here]
  simp [atMarker_of_ne, gap]

/-- The state behind a plain scalar that may be a key. -/
def noted (place : Place) (rest : List Char) (k : KeyStart) (ts : List Token)
    (stack : List Nat) : Lexer :=
  { between place rest ts stack false with candidates := [some k] }

/-- The key that a plain scalar at `place` would be. -/
def keyAt (place : Place) (ts : List Token) (stack : List Nat) : KeyStart :=
  ⟨ts.length, place, (between place [] ts stack true).indent == (place.column : Int)⟩

theorem fetchPlain_key (place : Place) (key : Key) {after : List Char} (gap : atGap after = true)
    (ts : List Token) (stack : List Nat) :
    fetchPlain (between place (key.name.toList ++ ':' :: after) ts stack true) =
      some (noted (place.advance key.name.toList.length) (':' :: after) (keyAt place ts stack)
        (.scalar key.name true :: ts) stack) := by
  have noting : noteKey (between place (key.name.toList ++ ':' :: after) ts stack true) =
      some { between place (key.name.toList ++ ':' :: after) ts stack true with
        candidates := [some (keyAt place ts stack)] } := rfl
  rw [fetchPlain, noting, Option.bind_eq_bind, Option.bind_some]
  dsimp only [flow, List.length_singleton, between]
  rw [show decide (1 > 1) = false from rfl, scanPlain_key _ key place gap]
  simp only [Option.bind_eq_bind, Option.bind_some, List.reverse_reverse, String.ofList_toList]
  rfl

/-- A key stays noted as long as it can end. -/
theorem settle_noted {here : Place} {k : KeyStart} {stack : List Nat}
    (line : k.place.line = here.line) (near : here.index ≤ k.place.index + 1024)
    (covers : Covers here.column stack) (ts : List Token) (after : List Char) :
    settle (noted here (':' :: after) k ts stack) =
      some (noted here (':' :: after) k ts stack) := by
  have skips : skipGaps false false false here (':' :: after) = (⟨here, ':' :: after⟩, false) :=
    skipGaps_bare (bare_cons (by decide) after) false false here
  have fresh : isStale k here = false := by
    rw [isStale, line, Bool.or_eq_false_iff]
    exact ⟨decide_eq_false (Nat.lt_irrefl here.line), decide_eq_false (Nat.not_lt.mpr near)⟩
  have kept : dropStale here [some k] = some [some k] := by
    rw [dropStale, fresh]
    rfl
  rw [settle_of rfl skips kept]
  exact congrArg some (closeTo_covered covers)

theorem fetchValue_of {l : Lexer} {k : KeyStart} {others : List (Option KeyStart)} {opens : Bool}
    (noted : l.candidates = some k :: others) (block : l.flow = false)
    (level : decide (l.indent < (k.place.column : Int)) = opens) :
    fetchValue l = some { ((l.insertKey k.number opens).allowKey false).take .value 1 with
      candidates := none :: others
      indents := if opens then k.place.column :: l.indents else l.indents } := by
  rw [fetchValue, noted]
  simp only [block, level, Bool.not_false, Bool.true_and]

theorem insertKey_noted (here : Place) (rest : List Char) (place : Place) (t : Token)
    (ts : List Token) (stack : List Nat) (opens : Bool) :
    (noted here rest (keyAt place ts stack) (t :: ts) stack).insertKey
        (keyAt place ts stack).number opens =
      noted here rest (keyAt place ts stack)
        (t :: .key :: (if opens then [.blockMappingStart] else []) ++ ts) stack := by
  cases opens <;> simp [insertKey, noted, between, keyAt]

/-- The colon turns the plain scalar `t` into a key. -/
theorem fetchValue_noted {place here : Place} {stack outer : List Nat} {opening : List Token}
    (opens : Opens .blockMappingStart place.column stack outer opening) (t : Token)
    (ts : List Token) (after : List Char) :
    fetchValue (noted here (':' :: after) (keyAt place ts stack) (t :: ts) stack) =
      some (between (here.advance 1) after (.value :: t :: .key :: opening ++ ts)
        (place.column :: outer) false) := by
  have level := opens.level (noted here (':' :: after) (keyAt place ts stack) (t :: ts) stack) rfl
  rcases level with ⟨level, rfl, rfl⟩ | ⟨level, rfl, rfl⟩
  · rw [fetchValue_of rfl rfl level, insertKey_noted]
    rfl
  · rw [fetchValue_of rfl rfl level, insertKey_noted]
    rfl

theorem reads_colon {place : Place} (here : Place) {stack outer : List Nat} {opening : List Token}
    (opens : Opens .blockMappingStart place.column stack outer opening)
    (line : place.line = here.line) (near : here.index ≤ place.index + 1024)
    (behind : place.column ≤ here.column) (t : Token) (ts : List Token) {after : List Char}
    (gap : atGap after = true) :
    Reads (noted here (':' :: after) (keyAt place ts stack) (t :: ts) stack)
      (between (here.advance 1) after (.value :: t :: .key :: opening ++ ts)
        (place.column :: outer) false) := by
  have covers : Covers here.column stack :=
    fun i first => Nat.le_trans (opens.covers i first) behind
  refine Reads.of_fetch rfl ?_ (Nat.lt_succ_self _)
  rw [fetch_eq_settle, settle_noted line near covers, Option.bind_some, fetchHere_colon rfl gap,
    fetchValue_noted opens]

/-- A key and its colon are read, and a mapping is opened where there was none. -/
theorem Awaits.key {l : Lexer} {column : Nat} {key : Key} {after : List Char} {ts : List Token}
    {stack outer : List Nat} {opening : List Token}
    (here : Awaits l column (key.name.toList ++ ':' :: after) ts stack)
    (opens : Opens .blockMappingStart column stack outer opening) (gap : atGap after = true) :
    ∃ place : Place, column ≤ place.column ∧ Reads l (between place after
      (.value :: .scalar key.name true :: .key :: opening ++ ts) (column :: outer) false) := by
  obtain ⟨place, rfl, fetched⟩ := here.settled opens.covers
  obtain ⟨c, rest, written, word⟩ := key.exists_eq_cons
  have scalar : Reads l (noted (place.advance key.name.toList.length) (':' :: after)
      (keyAt place ts stack) (.scalar key.name true :: ts) stack) := by
    refine Reads.of_fetch here.unfinished ?_ ?_
    · rw [fetched, fetchHere_word (rest ++ ':' :: after) (by rw [written]; rfl) word,
        fetchPlain_key place key gap]
    · have shorter := here.shorter
      have filled := List.length_pos_of_ne_nil key.filled
      rw [List.length_append] at shorter
      change (':' :: after).length < _
      omega
  have colon := reads_colon (place.advance key.name.toList.length) opens rfl
    (Nat.add_le_add_left key.short place.index) (Nat.le_add_right _ _) (.scalar key.name true) ts
    gap
  refine ⟨(place.advance key.name.toList.length).advance 1, ?_, scalar.trans colon⟩
  exact Nat.le_trans (Nat.le_add_right _ _) (Nat.le_add_right _ 1)

theorem openAt_between {t : Token} {column : Nat} {stack outer : List Nat} {opening : List Token}
    (opens : Opens t column stack outer opening) (place : Place) (rest : List Char)
    (ts : List Token) (keyAllowed : Bool) :
    openAt column t (between place rest ts stack keyAllowed) =
      between place rest (opening ++ ts) (column :: outer) keyAllowed := by
  have block : (between place rest ts stack keyAllowed).flow = false := rfl
  rcases opens.level (between place rest ts stack keyAllowed) rfl with
    ⟨level, rfl, rfl⟩ | ⟨level, rfl, rfl⟩
  · rw [openAt, if_neg (by simpa [block] using level)]
    rfl
  · rw [openAt, if_pos (by simpa [block] using level)]
    rfl

theorem fetchHere_item {l : Lexer} {rest : List Char} (here : l.cursor.rest = '-' :: ' ' :: rest) :
    fetchHere l = fetchBlockEntry l := by
  have marker : atMarker '-' ('-' :: ' ' :: rest) = false := by
    cases rest with
    | nil => rfl
    | cons c rest => simp [atMarker]
  rw [fetchHere, here]
  simp [atMarker_of_ne, marker, atGap, isSpace]

/-- The mark of an item is read, and a sequence is opened where there was none. -/
theorem Awaits.item {l : Lexer} {column : Nat} {after : List Char} {ts : List Token}
    {stack outer : List Nat} {opening : List Token}
    (here : Awaits l column ('-' :: ' ' :: after) ts stack)
    (opens : Opens .blockSequenceStart column stack outer opening) (bare : Bare after) :
    ∃ l', Reads l l' ∧
      Awaits l' (column + 2) after (.blockEntry :: opening ++ ts) (column :: outer) := by
  obtain ⟨place, rfl, fetched⟩ := here.settled opens.covers
  have entry : fetch l = some (between (place.advance 1) (' ' :: after)
      (.blockEntry :: opening ++ ts) (place.column :: outer) true) := by
    rw [fetched, fetchHere_item rfl, fetchBlockEntry, if_neg (by simp [between])]
    change ((forgetKey (openAt place.column .blockSequenceStart
      (between place ('-' :: ' ' :: after) ts stack true))).map _) = _
    rw [openAt_between opens]
    rfl
  refine ⟨_, Reads.of_fetch here.unfinished entry here.shorter, ?_⟩
  exact awaits_spaces (place.advance 1) 1 bare _ _

theorem fetchHere_quote {l : Lexer} {rest : List Char} (here : l.cursor.rest = '\'' :: rest) :
    fetchHere l = fetchQuoted false l := by
  rw [fetchHere, here]
  simp [atMarker_of_ne]

/-- Behind a key, the gap in front of a value on the same line is passed. -/
theorem settle_space {place : Place} {column : Nat} (behind : column ≤ place.column)
    {s : List Char} (bare : Bare s) (ts : List Token) (outer : List Nat) :
    settle (between place (' ' :: s) ts (column :: outer) false) =
      some (between (place.advance 1) s ts (column :: outer) false) := by
  have skips : skipGaps false false false place (' ' :: s) = (⟨place.advance 1, s⟩, false) :=
    (skipGaps_spaces false false place 1 s).trans (skipGaps_bare bare _ _ _)
  have covers : Covers (place.advance 1).column (column :: outer) := by
    rintro _ ⟨⟩
    exact Nat.le_succ_of_le behind
  rw [settle_between skips, closeTo_covered covers]

theorem fetchQuoted_inline {s : String} (inline : ∀ c ∈ s.toList, isInline c = true)
    {rest : List Char} (ends : rest.head? ≠ some '\'') (place : Place) (ts : List Token)
    (stack : List Nat) : ∃ after,
      fetchQuoted false (between place ('\'' :: (Written.doubled s.toList ++ '\'' :: rest)) ts
          stack false) =
        some (between after rest (.scalar s false :: ts) stack false) := by
  have behind : 0 < (place.advance 1).column := Nat.succ_pos _
  obtain ⟨after, read⟩ := scanSingle_inline inline [] [] behind ends
  refine ⟨after, ?_⟩
  change (scanSingle [] (spaced []) (place.advance 1)
    (Written.doubled s.toList ++ '\'' :: rest)).bind _ = _
  have whole : String.ofList (s.toList.reverse ++ ([].reverse ++ [])).reverse = s := by simp
  rw [read, Option.bind_some]
  dsimp only
  rw [whole]
  rfl

theorem reads_quoted {place : Place} {column : Nat} (behind : column ≤ place.column) {s : String}
    (inline : ∀ c ∈ s.toList, isInline c = true) {rest : List Char}
    (ends : rest.head? ≠ some '\'') (ts : List Token) (outer : List Nat) :
    ∃ after, Reads (between place (' ' :: (Written.quote s ++ rest)) ts (column :: outer) false)
      (between after rest (.scalar s false :: ts) (column :: outer) false) := by
  have bare : Bare (Written.quote s ++ rest) := bare_cons (by decide) _
  obtain ⟨after, fetched⟩ := fetchQuoted_inline inline ends (place.advance 1) ts (column :: outer)
  refine ⟨after, Reads.of_fetch rfl ?_ ?_⟩
  · rw [fetch_eq_settle, settle_space behind bare, Option.bind_some, fetchHere_quote rfl]
    simpa [Written.quote] using fetched
  · simp only [between, Written.quote, List.length_cons, List.length_append]
    omega

theorem reads_number {place : Place} {column : Nat} (behind : column ≤ place.column) (n : Nat)
    {column' : Nat} (shallow : column' ≤ column) {rest : List Char} (bare : Bare rest)
    (ts : List Token) (outer : List Nat) :
    ∃ after : Place, after.column = column' ∧
      Reads (between place (' ' :: (Text.decimal n ++ (Written.newline column' ++ rest))) ts
          (column :: outer) false)
        (between after rest (.scalar (String.ofList (Text.decimal n)) true :: ts)
          (column :: outer) true) := by
  have digits : ∀ c ∈ Text.decimal n, c.isAlphanum = true :=
    fun c member => isAlphanum_of_isDigit (Text.isDigit_of_mem_decimal member)
  obtain ⟨d, ds, written, digit⟩ := Text.exists_decimal_eq_cons n
  have word := isAlphanum_of_isDigit digit
  have bare' : Bare (Text.decimal n ++ (Written.newline column' ++ rest)) :=
    bare_of_solid ⟨d, _, by rw [written, List.cons_append], Or.inl word⟩
  have below : (column' : Int) < (column : Int) + 1 := by omega
  obtain ⟨after, here, read⟩ := scanPlain_ended digits (place.advance 1) below bare
  refine ⟨after, here, Reads.of_fetch rfl ?_ ?_⟩
  · rw [fetch_eq_settle, settle_space behind bare', Option.bind_some,
      fetchHere_word (ds ++ _) (by rw [written]; rfl) word]
    change (scanPlain false ((column : Int) + 1) [] Gap.none (place.advance 1)
      (Text.decimal n ++ (Written.newline column' ++ rest))).bind _ = _
    rw [read, Option.bind_some, List.reverse_reverse]
    rfl
  · simp only [between, List.length_cons, List.length_append]
    omega

theorem atGap_value (column : Nat) (v : Written.Value) (rest : List Char) :
    atGap (v.text column ++ rest) = true := by
  cases written : v.text column with
  | nil => simpa [written] using v.head?_text column
  | cons c text =>
      have start := v.head?_text column
      rw [written] at start
      rcases start with gap | gap <;> cases gap <;> rfl

mutual

/-- A value is read behind its key, and then the line end that follows it. -/
theorem reads_value {column : Nat} (v : Written.Value) (inline : Written.Inline v.texts)
    {place : Place} (behind : column ≤ place.column) {column' : Nat} (shallow : column' ≤ column)
    {more : List Char} (bare : Bare more) (ts : List Token) (outer : List Nat) :
    ∃ l', Reads (between place (v.text column ++ (Written.newline column' ++ more)) ts
        (column :: outer) false) l' ∧
      Awaits l' column' more (v.tokens.reverse ++ ts) (column :: outer) := by
  cases v with
  | quoted s =>
      have ends : (Written.newline column' ++ more).head? ≠ some '\'' := by simp [Written.newline]
      obtain ⟨after, read⟩ := reads_quoted behind (inline s List.mem_cons_self) ends ts outer
      exact ⟨_, read, awaits_newline after column' bare _ _ false⟩
  | number n =>
      obtain ⟨after, rfl, read⟩ := reads_number behind n shallow bare ts outer
      exact ⟨_, read, awaits_spaces after 0 bare _ _⟩
  | record r =>
      have start := awaits_newline place (column + 2)
        (bare_of_solid ((r.solid_text (column + 2)).append (Written.newline column' ++ more))) ts
        (column :: outer) false
      obtain ⟨l', read, awaits⟩ := reads_record r inline (by omega) bare start
        (Opens.deeper (by simp))
      refine ⟨l', by simpa [Written.Value.text] using read, ?_⟩
      simpa [Written.Value.tokens] using awaits.pop (by omega)
  | sequence s =>
      have start := awaits_newline place (column + 2)
        (bare_of_solid ((s.solid_text (column + 2)).append (Written.newline column' ++ more))) ts
        (column :: outer) false
      obtain ⟨l', read, awaits⟩ := reads_items s inline (by omega) bare start
        (Opens.deeper (by simp))
      refine ⟨l', by simpa [Written.Value.text] using read, ?_⟩
      simpa [Written.Value.tokens] using awaits.pop (by omega)

/-- A record is read and left open, since it is closed by the column behind its end. -/
theorem reads_record {column : Nat} (r : Written.Record) (inline : Written.Inline r.texts)
    {l : Lexer} {column' : Nat} (shallow : column' ≤ column) {more : List Char} (bare : Bare more)
    {ts : List Token} {stack outer : List Nat} {opening : List Token}
    (here : Awaits l column (r.text column ++ (Written.newline column' ++ more)) ts stack)
    (opens : Opens .blockMappingStart column stack outer opening) :
    ∃ l', Reads l l' ∧
      Awaits l' column' more (r.tokens.reverse ++ (opening ++ ts)) (column :: outer) := by
  cases r with
  | one key value =>
      have gap := atGap_value column value (Written.newline column' ++ more)
      rw [Written.Record.text, List.append_assoc, List.cons_append] at here
      obtain ⟨place, behind, first⟩ := here.key opens gap
      obtain ⟨l', second, awaits⟩ := reads_value value inline behind shallow bare
        (.value :: .scalar key.name true :: .key :: opening ++ ts) outer
      refine ⟨l', first.trans second, ?_⟩
      simpa [Written.Record.tokens] using awaits
  | cons key value rest =>
      obtain ⟨inline, others⟩ := Written.Inline.append.mp inline
      have next := bare_of_solid ((rest.solid_text column).append (Written.newline column' ++ more))
      have gap := atGap_value column value
        (Written.newline column ++ (rest.text column ++ (Written.newline column' ++ more)))
      simp only [Written.Record.text, List.append_assoc, List.cons_append] at here
      obtain ⟨place, behind, first⟩ := here.key opens gap
      obtain ⟨l', second, here'⟩ := reads_value value inline behind (Nat.le_refl column) next
        (.value :: .scalar key.name true :: .key :: opening ++ ts) outer
      obtain ⟨l'', third, awaits⟩ := reads_record rest others shallow bare here'
        (Opens.already outer)
      refine ⟨l'', first.trans (second.trans third), ?_⟩
      simpa [Written.Record.tokens] using awaits

theorem reads_items {column : Nat} (s : Written.Items) (inline : Written.Inline s.texts)
    {l : Lexer} {column' : Nat} (shallow : column' ≤ column) {more : List Char} (bare : Bare more)
    {ts : List Token} {stack outer : List Nat} {opening : List Token}
    (here : Awaits l column (s.text column ++ (Written.newline column' ++ more)) ts stack)
    (opens : Opens .blockSequenceStart column stack outer opening) :
    ∃ l', Reads l l' ∧
      Awaits l' column' more (s.tokens.reverse ++ (opening ++ ts)) (column :: outer) := by
  cases s with
  | one r =>
      have item := bare_of_solid
        ((r.solid_text (column + 2)).append (Written.newline column' ++ more))
      simp only [Written.Items.text, List.cons_append] at here
      obtain ⟨l₁, first, here₁⟩ := here.item opens item
      obtain ⟨l₂, second, here₂⟩ := reads_record r inline (by omega) bare here₁
        (Opens.deeper (by simp))
      refine ⟨l₂, first.trans second, ?_⟩
      simpa [Written.Items.tokens] using here₂.pop (by omega)
  | cons r rest =>
      obtain ⟨inline, others⟩ := Written.Inline.append.mp inline
      have next := bare_of_solid ((rest.solid_text column).append (Written.newline column' ++ more))
      have item := bare_of_solid ((r.solid_text (column + 2)).append
        (Written.newline column ++ (rest.text column ++ (Written.newline column' ++ more))))
      simp only [Written.Items.text, List.append_assoc, List.cons_append] at here
      obtain ⟨l₁, first, here₁⟩ := here.item opens item
      obtain ⟨l₂, second, here₂⟩ := reads_record r inline (by omega) next here₁
        (Opens.deeper (by simp))
      obtain ⟨l₃, third, here₃⟩ := reads_items rest others shallow bare (here₂.pop (by omega))
        (Opens.already outer)
      refine ⟨l₃, first.trans (second.trans third), ?_⟩
      simpa [Written.Items.tokens] using here₃

end

theorem fetchHere_end {l : Lexer} (here : l.cursor.rest = []) : fetchHere l = fetchEnd l := by
  rw [fetchHere, here]

/-- At the end of the stream the root is closed. -/
theorem Awaits.finish {l : Lexer} {ts : List Token} (here : Awaits l 0 [] ts [0]) (fuel : Nat) :
    (run (fuel + 2) l).map Lexer.tokens = some (.streamEnd :: .blockEnd :: ts) := by
  obtain ⟨place, -, fetched⟩ := here.settled (by rintro _ ⟨⟩; exact Nat.le_refl 0)
  have closed : closeTo (-1) (between place [] ts [0] true) =
      between place [] (.blockEnd :: ts) [] true := by
    rw [closeTo_pop (by decide)]
    exact closeTo_between _ _ _ _ _ _ rfl
  have ending : fetch l = some
      { (between place [] (.blockEnd :: ts) [] true).emit .streamEnd with finished := true } := by
    rw [fetched, fetchHere_end rfl, fetchEnd, closed]
    rfl
  rw [run, here.unfinished, if_neg (by decide), ending, Option.bind_some, run]
  rfl

end Lexer

/-- The tokens of a written document are those of its root. -/
theorem tokens?_document (r : Written.Record) (inline : Written.Inline r.texts) :
    tokens? r.document = some r.stream := by
  have tidy : Written.Tidy r.document := r.tidy_document inline
  have bare : Bare r.document := bare_of_solid ((r.solid_text 0).append _)
  have none : Bare [] := by simp [Bare]
  obtain ⟨l, ⟨n, enough, runs⟩, here⟩ := Lexer.reads_record r inline (Nat.le_refl 0) none
    (Lexer.awaits_spaces ⟨0, 0, 0⟩ 0 bare [] [])
    (Lexer.Opens.deeper (by simp))
  have fuel : r.document.length + 2 = (r.document.length - n + 2) + n := by
    have length : n ≤ r.document.length := Nat.le_trans (Nat.le_add_right n _) enough
    omega
  have ending := here.finish (r.document.length - n)
  rw [← runs] at ending
  have forward := congrArg (Option.map List.reverse) ending
  rw [Option.map_map] at forward
  rw [tokens?, if_pos (List.all_eq_true.mpr tidy.allowed), fuel]
  exact forward.trans (by simp [Written.Record.stream])

end LintReport.Yaml
