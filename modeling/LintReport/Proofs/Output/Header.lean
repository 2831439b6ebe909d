import LintReport.Output.Message
import LintReport.Proofs.Text.Offset
import Mathlib.Data.List.TakeWhile

set_option autoImplicit false

/- What a header line is. It is cut at its first location, whatever stands behind that, and a
search by offsets in bytes makes the same cuts. -/
namespace LintReport

namespace Text

theorem digitOf?_of_isDigit {c : Char} (digit : isDigit c = true) :
    digitOf? 10 c = some (c.toNat - '0'.toNat) := by
  have range : '0' ≤ c ∧ c ≤ '9' := by simpa [isDigit] using digit
  have small : c.toNat - '0'.toNat < 10 := by
    have upper : c.toNat ≤ '9'.toNat := range.2
    have nine : '9'.toNat = '0'.toNat + 9 := rfl
    omega
  rw [digitOf?, digit?, if_pos range, Option.filter_some, if_pos (by simpa using small)]

/-- Digits write the number that their values make. -/
theorem digitsFrom?_of_isDigit (acc : Nat) {digits : List Char}
    (allDigits : ∀ c ∈ digits, isDigit c = true) :
    digitsFrom? 10 acc digits = some (Nat.ofDigitChars 10 digits acc) := by
  induction digits generalizing acc with
  | nil => rfl
  | cons c digits ih =>
      obtain ⟨digit, rest⟩ := List.forall_mem_cons.mp allDigits
      rw [digitsFrom?, digitOf?_of_isDigit digit, Option.bind_some, ih _ rest, Nat.mul_comm]
      rfl

theorem splitFirst_append {sep : Char} {before : List Char} (clear : sep ∉ before)
    (after : List Char) : splitFirst sep (before ++ sep :: after) = some (before, after) := by
  induction before with
  | nil => rw [List.nil_append, splitFirst, if_pos rfl]
  | cons c before ih =>
      obtain ⟨other, rest⟩ := not_or.mp (List.mem_cons.not.mp clear)
      rw [List.cons_append, splitFirst, if_neg (Ne.symm other), ih rest]
      rfl

/-- Trimming leaves nothing of blanks only. -/
theorem trim_isEmpty_iff (s : List Char) :
    (trim s).isEmpty = true ↔ ∀ c ∈ s, isBlank c = true := by
  rw [List.isEmpty_iff, trim, trimEnd, List.reverse_eq_nil_iff, List.dropWhile_eq_nil_iff, trimStart]
  simp only [List.mem_reverse]
  constructor
  · intro behind c member
    rw [← List.takeWhile_append_dropWhile (p := isBlank) (l := s), List.mem_append] at member
    rcases member with front | back
    · exact List.mem_takeWhile_imp front
    · exact behind c back
  · intro all c member
    exact all c ((List.dropWhile_suffix isBlank).subset member)

end Text

namespace CompilerMessage

/-- Digits that write a number of 32 bits. -/
structure Writes (digits : List Char) (n : UInt32) : Prop where
  filled : digits ≠ []
  plain : ∀ c ∈ digits, Text.isDigit c = true
  value : Nat.ofDigitChars 10 digits 0 = n.toNat

/-- A text that starts with a location: a colon, the digits of a line, a colon, the digits of a
column, a colon and a space. -/
def Locates (text : List Char) (row column : UInt32) (rest : List Char) : Prop :=
  ∃ rowDigits columnDigits, Writes rowDigits row ∧ Writes columnDigits column ∧
    text = ':' :: rowDigits ++ ':' :: columnDigits ++ ':' :: ' ' :: rest

/-- The path of a line is the shortest text, but not an empty one, in front of a location. -/
structure FirstLocation (line path : List Char) (row column : UInt32) (rest : List Char) :
    Prop where
  filled : path ≠ []
  located : ∃ behind, line = path ++ behind ∧ Locates behind row column rest
  shortest : ∀ front behind row' column' rest', front ≠ [] → line = front ++ behind →
    Locates behind row' column' rest' → path.length ≤ front.length

theorem leadingNumber?_append {digits : List Char} {n : UInt32} (writes : Writes digits n)
    {c : Char} (stop : Text.isDigit c = false) (rest : List Char) :
    leadingNumber? (digits ++ c :: rest) = some (n, c :: rest) := by
  have front : (digits ++ c :: rest).takeWhile Text.isDigit = digits := by
    rw [List.takeWhile_append_of_pos writes.plain, List.takeWhile_cons, if_neg (by simp [stop]),
      List.append_nil]
  have back : (digits ++ c :: rest).dropWhile Text.isDigit = c :: rest := by
    rw [List.dropWhile_append_of_pos writes.plain, List.dropWhile_cons, if_neg (by simp [stop])]
  have number : Text.number? 10 digits = some n.toNat := by
    rw [Text.number?, List.isEmpty_eq_false_iff.mpr writes.filled, if_neg Bool.false_ne_true,
      Text.digitsFrom?_of_isDigit 0 writes.plain, writes.value]
  rw [leadingNumber?, front, back, number]
  show (if n.toNat < UInt32.size then some (n.toNat.toUInt32, c :: rest) else none) = _
  rw [if_pos n.toNat_lt]
  simp

theorem exists_of_leadingNumber? {s rest : List Char} {n : UInt32}
    (read : leadingNumber? s = some (n, rest)) : ∃ digits, Writes digits n ∧ s = digits ++ rest := by
  unfold leadingNumber? at read
  split at read
  · next value number =>
      split at read
      · next small =>
          cases read
          have allDigits : ∀ c ∈ s.takeWhile Text.isDigit, Text.isDigit c = true :=
            fun c member => List.mem_takeWhile_imp member
          refine ⟨s.takeWhile Text.isDigit, ⟨?_, allDigits, ?_⟩,
            List.takeWhile_append_dropWhile.symm⟩
          · intro none
            rw [none] at number
            cases number
          · rw [Text.number?] at number
            split at number
            · cases number
            · rw [Text.digitsFrom?_of_isDigit 0 allDigits] at number
              cases number
              exact (UInt32.toNat_ofNat_of_lt' small).symm
      · cases read
  · cases read

theorem location?_eq_some_iff {text rest : List Char} {row column : UInt32} :
    location? text = some ((row, column), rest) ↔ Locates text row column rest := by
  constructor
  · intro read
    unfold location? at read
    split at read
    · split at read
      · next rowRead =>
          split at read
          · next columnRead =>
              cases read
              obtain ⟨rowDigits, rowWrites, rfl⟩ := exists_of_leadingNumber? rowRead
              obtain ⟨columnDigits, columnWrites, rfl⟩ := exists_of_leadingNumber? columnRead
              exact ⟨rowDigits, columnDigits, rowWrites, columnWrites, by simp⟩
          · cases read
      · cases read
    · cases read
  · rintro ⟨rowDigits, columnDigits, rowWrites, columnWrites, rfl⟩
    have stop : Text.isDigit ':' = false := by decide
    simp only [List.append_assoc, List.cons_append, location?,
      leadingNumber?_append rowWrites stop, leadingNumber?_append columnWrites stop]

/-! The first location. -/

theorem not_locates_of_ne {c : Char} (other : c ≠ ':') (s : List Char) (row column : UInt32)
    (rest : List Char) : ¬ Locates (c :: s) row column rest := by
  rintro ⟨rowDigits, columnDigits, _, _, same⟩
  exact other (List.cons.inj same).1

/-- A location is read off its text, so there is one line, column and rest only. -/
theorem Locates.unique {text rest rest' : List Char} {row column row' column' : UInt32}
    (here : Locates text row column rest) (there : Locates text row' column' rest') :
    row' = row ∧ column' = column ∧ rest' = rest := by
  rw [← location?_eq_some_iff] at here there
  rw [here] at there
  cases there
  exact ⟨rfl, rfl, rfl⟩

theorem FirstLocation.cons {line path rest : List Char} {row column : UInt32} {c : Char}
    (first : FirstLocation line path row column rest)
    (none : ∀ row' column' rest', ¬ Locates line row' column' rest') :
    FirstLocation (c :: line) (c :: path) row column rest := by
  obtain ⟨filled, ⟨behind, equal, locates⟩, shortest⟩ := first
  refine ⟨List.cons_ne_nil c path, ⟨behind, by rw [equal, List.cons_append], locates⟩, ?_⟩
  intro front behind' row' column' rest' filled' split locates'
  cases front with
  | nil => exact absurd rfl filled'
  | cons d front =>
      rw [List.cons_append] at split
      obtain ⟨_, tails⟩ := List.cons.inj split
      by_cases empty : front = []
      · rw [empty, List.nil_append] at tails
        exact absurd (tails ▸ locates') (none row' column' rest')
      · exact Nat.succ_le_succ (shortest front behind' row' column' rest' empty tails locates')

theorem FirstLocation.of_cons {line path rest : List Char} {row column : UInt32} {c : Char}
    (first : FirstLocation (c :: line) path row column rest)
    (none : ∀ row' column' rest', ¬ Locates line row' column' rest') :
    ∃ path', path = c :: path' ∧ FirstLocation line path' row column rest := by
  obtain ⟨filled, ⟨behind, equal, locates⟩, shortest⟩ := first
  cases path with
  | nil => exact absurd rfl filled
  | cons d path =>
      rw [List.cons_append] at equal
      obtain ⟨head, tails⟩ := List.cons.inj equal
      refine ⟨path, by rw [head], ?_, ⟨behind, tails, locates⟩, ?_⟩
      · intro empty
        rw [empty, List.nil_append] at tails
        exact none row column rest (tails ▸ locates)
      · intro front behind' row' column' rest' _ split locates'
        have longer := shortest (c :: front) behind' row' column' rest' (List.cons_ne_nil c front)
          (by rw [split, List.cons_append]) locates'
        exact Nat.le_of_succ_le_succ longer

theorem splitLocation_eq_some_iff {line path rest : List Char} {row column : UInt32} :
    splitLocation line = some (path, (row, column), rest) ↔
      FirstLocation line path row column rest := by
  induction line generalizing path with
  | nil =>
      constructor
      · intro found
        cases found
      · rintro ⟨filled, ⟨behind, equal, _⟩, _⟩
        exact absurd (List.append_eq_nil_iff.mp equal.symm).1 filled
  | cons c line ih =>
      rw [splitLocation]
      cases read : location? line with
      | some found =>
          obtain ⟨⟨row', column'⟩, rest'⟩ := found
          have here : Locates line row' column' rest' := location?_eq_some_iff.mp read
          constructor
          · intro found
            cases found
            refine ⟨List.cons_ne_nil c [], ⟨line, rfl, here⟩, ?_⟩
            intro front behind _ _ _ filled _ _
            exact List.length_pos_iff.mpr filled
          · rintro ⟨filled, ⟨behind, equal, locates⟩, shortest⟩
            have single := shortest [c] line row' column' rest' (List.cons_ne_nil c []) rfl here
            obtain ⟨d, rfl⟩ : ∃ d, path = [d] := by
              rw [← List.length_eq_one_iff]
              exact Nat.le_antisymm single (List.length_pos_iff.mpr filled)
            cases equal
            obtain ⟨rfl, rfl, rfl⟩ := here.unique locates
            rfl
      | none =>
          have none : ∀ row' column' rest', ¬ Locates line row' column' rest' := by
            intro row' column' rest' here
            rw [location?_eq_some_iff.mpr here] at read
            cases read
          constructor
          · intro found
            obtain ⟨⟨path', place, rest'⟩, deeper, equal⟩ := Option.map_eq_some_iff.mp found
            cases equal
            exact (ih.mp deeper).cons none
          · intro first
            obtain ⟨path', rfl, deeper⟩ := first.of_cons none
            rw [ih.mpr deeper]
            rfl

/-! The message behind it. -/

/-- The message of a line that is cut at a location. -/
def behind? (path : List Char) (row column : UInt32) (rest : List Char) :
    Option CompilerMessage :=
  match Text.splitFirst ':' rest with
  | none => none
  | some (word, message) =>
      if (Text.trim word).isEmpty then none
      else some {
        path := String.ofList path
        position := Position.ofOneBased row column
        severity := String.ofList (Text.trim word)
        message := String.ofList (Text.trim message) }

theorem ofHeader?_eq_bind (line : List Char) : ofHeader? line =
    (splitLocation line).bind fun (path, (row, column), rest) => behind? path row column rest := by
  unfold ofHeader?
  cases splitLocation line with
  | none => rfl
  | some found => rfl

theorem behind?_eq_some_iff {path rest : List Char} {row column : UInt32}
    {m : CompilerMessage} : behind? path row column rest = some m ↔
      ∃ word message, rest = word ++ ':' :: message ∧ ':' ∉ word ∧
        (∃ c ∈ word, Text.isBlank c = false) ∧
        m = ⟨String.ofList path, Position.ofOneBased row column, String.ofList (Text.trim word),
          String.ofList (Text.trim message)⟩ := by
  have solid (word : List Char) :
      (∃ c ∈ word, Text.isBlank c = false) ↔ ¬ (Text.trim word).isEmpty = true := by
    rw [Text.trim_isEmpty_iff]
    simp
  unfold behind?
  constructor
  · intro found
    split at found
    · cases found
    · next word message cut =>
        split at found
        · cases found
        · next filled =>
            cases found
            obtain ⟨equal, clear⟩ := Text.splitFirst_eq_some cut
            exact ⟨word, message, equal, clear, (solid word).mpr filled, rfl⟩
  · rintro ⟨word, message, rfl, clear, filled, rfl⟩
    rw [Text.splitFirst_append clear]
    exact if_neg ((solid word).mp filled)

/-! The search by offsets. It works on the bytes of the line, and each of its cuts has to fall
between two characters. -/

/-- A run of digits at the front of a text, cut off where it ends; `none` if that is inside a
character. -/
def numberAt? (s : List Char) : Option (Option (UInt32 × List Char)) :=
  let stop := (Text.offsetOf? (fun c => !Text.isDigit c) s).getD (Text.byteLength s)
  (Text.cutAt? stop s).map fun (digits, rest) =>
    match Text.number? 10 digits with
    | some n => if n < UInt32.size then some (n.toUInt32, rest) else none
    | none => none

theorem numberAt?_eq (s : List Char) : numberAt? s = some (leadingNumber? s) := by
  rw [numberAt?, Text.getD_offsetOf?,
    Text.cutAt?_of_eq List.takeWhile_append_dropWhile.symm rfl]
  rfl

/-- The location behind a colon. -/
def locationAt? (s : List Char) : Option (Option ((UInt32 × UInt32) × List Char)) :=
  match numberAt? s with
  | none => none
  | some (some (row, ':' :: s)) =>
      match numberAt? s with
      | none => none
      | some (some (column, ':' :: ' ' :: rest)) => some (some ((row, column), rest))
      | some _ => some none
  | some _ => some none

theorem locationAt?_eq (s : List Char) : locationAt? s = some (location? (':' :: s)) := by
  rw [locationAt?, location?, numberAt?_eq]
  split
  · next impossible => cases impossible
  · next row behind read =>
      rw [Option.some.inj read, numberAt?_eq]
      simp only
      split
      · next impossible => cases impossible
      · next column rest read' =>
          rw [Option.some.inj read']
          rfl
      · next found other read' =>
          rw [Option.some.inj read']
          split
          · next column rest => exact absurd rfl (other column rest)
          · rfl
  · next found other read =>
      rw [Option.some.inj read]
      split
      · next row behind => exact absurd rfl (other row behind)
      · rfl

/-- Looks for the first location behind some offset: from each colon on, until one is found or
no colon is left. -/
def searchAt? (line : List Char) (start : Nat) :
    Option (Option (List Char × (UInt32 × UInt32) × List Char)) :=
  match Text.cutAt? start line with
  | none => none
  | some (_, ahead) =>
      match Text.offsetOf? (· = ':') ahead with
      | none => some none
      | some skipped =>
          match _cut : Text.cutAt? (start + skipped + 1) line with
          | none => none
          | some (_, behind) =>
              match locationAt? behind with
              | none => none
              | some (some found) =>
                  (Text.cutAt? (start + skipped) line).map fun parts => some (parts.1, found)
              | some none => searchAt? line (start + skipped + 1)
  termination_by Text.byteLength line - start
  decreasing_by
    have inside := Text.le_byteLength_of_cutAt? _cut
    omega

/-- The message of a header line, looked for behind its first character. -/
def headerAt? (line : List Char) : Option (Option CompilerMessage) :=
  match line with
  | [] => some none
  | c :: _ =>
      (searchAt? line c.utf8Size).map fun found =>
        found.bind fun (path, (row, column), rest) => behind? path row column rest

theorem splitLocation_of_not_mem {c : Char} {s : List Char} (clear : ':' ∉ s) :
    splitLocation (c :: s) = none := by
  apply Option.eq_none_iff_forall_ne_some.mpr
  rintro ⟨path, ⟨row, column⟩, rest⟩ found
  obtain ⟨filled, ⟨behind, equal, rowDigits, columnDigits, _, _, located⟩, _⟩ :=
    splitLocation_eq_some_iff.mp found
  cases path with
  | nil => exact filled rfl
  | cons d path =>
      rw [located, List.cons_append] at equal
      apply clear
      rw [(List.cons.inj equal).2]
      simp

/-- In front of the first colon there is no location. -/
theorem splitLocation_append {skipped : List Char} (clear : ':' ∉ skipped) (c : Char)
    (after : List Char) : splitLocation (c :: (skipped ++ ':' :: after)) =
      match location? (':' :: after) with
      | some (place, rest) => some (c :: skipped, place, rest)
      | none => (splitLocation (':' :: after)).map fun p => (c :: skipped ++ p.1, p.2) := by
  induction skipped generalizing c with
  | nil => rw [List.nil_append, splitLocation]; rfl
  | cons d skipped ih =>
      obtain ⟨other, rest⟩ := not_or.mp (List.mem_cons.not.mp clear)
      have none : location? (d :: (skipped ++ ':' :: after)) = none := by
        apply Option.eq_none_iff_forall_ne_some.mpr
        rintro ⟨⟨row, column⟩, rest⟩ found
        exact not_locates_of_ne (Ne.symm other) _ _ _ _ (location?_eq_some_iff.mp found)
      rw [List.cons_append, splitLocation, none, ih rest d]
      cases location? (':' :: after) with
      | some found => rfl
      | none =>
          dsimp only
          rw [Option.map_map]
          rfl

theorem searchAt?_of_not_mem {back : List Char} (clear : ':' ∉ back) (front : List Char) :
    searchAt? (front ++ back) (Text.byteLength front) = some none := by
  have none : Text.offsetOf? (· = ':') back = none := by
    apply Text.offsetOf?_eq_none
    intro d member
    exact decide_eq_false fun equal => clear (equal ▸ member)
  unfold searchAt?
  rw [Text.cutAt?_byteLength]
  dsimp only
  rw [none]

/-- One step of the search goes to the next colon. -/
theorem searchAt?_append {skipped : List Char} (clear : ':' ∉ skipped) (front after : List Char) :
    searchAt? (front ++ (skipped ++ ':' :: after)) (Text.byteLength front) =
      match location? (':' :: after) with
      | some found => some (some (front ++ skipped, found))
      | none => searchAt? (front ++ (skipped ++ ':' :: after))
          (Text.byteLength (front ++ skipped ++ [':'])) := by
  have offset : Text.offsetOf? (· = ':') (skipped ++ ':' :: after) =
      some (Text.byteLength skipped) := by
    apply Text.offsetOf?_append _ (by decide)
    intro d member
    exact decide_eq_false fun equal => clear (equal ▸ member)
  have next : Text.byteLength front + Text.byteLength skipped + 1 =
      Text.byteLength (front ++ skipped ++ [':']) := by
    rw [Text.byteLength_append (front ++ skipped), Text.byteLength_append, Text.byteLength_singleton]
    rfl
  have cutBehind : Text.cutAt? (Text.byteLength (front ++ skipped ++ [':']))
      (front ++ (skipped ++ ':' :: after)) = some (front ++ skipped ++ [':'], after) :=
    Text.cutAt?_of_eq (by simp) rfl
  have cutFront : Text.cutAt? (Text.byteLength front + Text.byteLength skipped)
      (front ++ (skipped ++ ':' :: after)) = some (front ++ skipped, ':' :: after) :=
    Text.cutAt?_of_eq (by simp) (Text.byteLength_append front skipped).symm
  rw [searchAt?, Text.cutAt?_byteLength]
  dsimp only
  rw [offset]
  dsimp only
  rw [next]
  split
  · next none =>
      rw [cutBehind] at none
      cases none
  · next parts behind cut =>
      rw [cutBehind] at cut
      cases cut
      rw [locationAt?_eq]
      cases location? (':' :: after) with
      | some found =>
          dsimp only
          rw [cutFront]
          rfl
      | none => rfl

/-- The search finds what the line is cut at, and never cuts inside a character. -/
theorem searchAt?_eq (init : List Char) (c : Char) (back : List Char) :
    searchAt? (init ++ [c] ++ back) (Text.byteLength (init ++ [c])) =
      some ((splitLocation (c :: back)).map fun p => (init ++ p.1, p.2)) := by
  -- What is left behind the colon of a step is shorter.
  induction size : back.length using Nat.strongRecOn generalizing init c back with
  | ind n ih =>
      by_cases colon : ':' ∈ back
      · obtain ⟨skipped, after, rfl, clear⟩ := List.eq_append_cons_of_mem colon
        rw [searchAt?_append clear, splitLocation_append clear]
        cases location? (':' :: after) with
        | some found => simp
        | none =>
            have shorter : after.length < n := by
              rw [← size, List.length_append, List.length_cons]
              omega
            have deeper := ih after.length shorter (init ++ [c] ++ skipped) ':' after rfl
            have whole : init ++ [c] ++ skipped ++ [':'] ++ after =
                init ++ [c] ++ (skipped ++ ':' :: after) := by simp
            rw [whole] at deeper
            dsimp only
            rw [deeper, Option.map_map]
            congr 2
            funext p
            simp
      · rw [searchAt?_of_not_mem colon, splitLocation_of_not_mem colon]
        rfl

theorem headerAt?_eq (line : List Char) : headerAt? line = some (ofHeader? line) := by
  rw [ofHeader?_eq_bind]
  cases line with
  | nil => rfl
  | cons c back =>
      have searched := searchAt?_eq [] c back
      rw [List.nil_append, Text.byteLength_singleton, List.singleton_append] at searched
      rw [headerAt?, searched]
      simp

/-- A line is a header if the text behind its first location has a word and a colon in front of
the message. Then it is cut there, and else it is none: no later location is tried. The search
by offsets comes to an end with the same, and makes no cut inside a character. -/
theorem ofHeader?_firstLocation (line : List Char) :
    (∀ m, ofHeader? line = some m ↔ ∃ path row column word message,
      FirstLocation line path row column (word ++ ':' :: message) ∧ ':' ∉ word ∧
      (∃ c ∈ word, Text.isBlank c = false) ∧ m.path = String.ofList path ∧
      m.position.line.toNat = row.toNat - 1 ∧ m.position.character.toNat = column.toNat - 1 ∧
      m.severity = String.ofList (Text.trim word) ∧
      m.message = String.ofList (Text.trim message)) ∧
    (∀ path row column rest, FirstLocation line path row column rest →
      (':' ∉ rest ∨ ∃ word message, rest = word ++ ':' :: message ∧ ':' ∉ word ∧
        ∀ c ∈ word, Text.isBlank c = true) → ofHeader? line = none) ∧
    headerAt? line = some (ofHeader? line) := by
  refine ⟨?_, ?_, headerAt?_eq line⟩
  · intro m
    rw [ofHeader?_eq_bind, Option.bind_eq_some_iff]
    constructor
    · rintro ⟨⟨path, ⟨row, column⟩, rest⟩, found, read⟩
      obtain ⟨word, message, rfl, clear, filled, rfl⟩ := behind?_eq_some_iff.mp read
      exact ⟨path, row, column, word, message, splitLocation_eq_some_iff.mp found, clear, filled,
        rfl, Position.toNat_predecessor row, Position.toNat_predecessor column, rfl, rfl⟩
    · rintro ⟨path, row, column, word, message, first, clear, filled, path_eq, line_eq,
        character_eq, severity_eq, message_eq⟩
      refine ⟨_, splitLocation_eq_some_iff.mpr first, behind?_eq_some_iff.mpr ?_⟩
      refine ⟨word, message, rfl, clear, filled, ?_⟩
      have position : m.position = Position.ofOneBased row column := by
        rw [← Position.toNat_predecessor] at line_eq character_eq
        rw [Position.mk.injEq]
        exact ⟨UInt32.toNat_inj.mp line_eq, UInt32.toNat_inj.mp character_eq⟩
      rw [← path_eq, ← position, ← severity_eq, ← message_eq]
  · intro path row column rest first rejected
    rw [ofHeader?_eq_bind, splitLocation_eq_some_iff.mpr first, Option.bind_some]
    apply Option.eq_none_iff_forall_ne_some.mpr
    intro m read
    obtain ⟨word, message, rfl, clear, ⟨c, member, solid⟩, _⟩ := behind?_eq_some_iff.mp read
    rcases rejected with none | ⟨word', message', split, clear', blank⟩
    · simp at none
    · have cut := Text.splitFirst_append clear message
      rw [split, Text.splitFirst_append clear' message'] at cut
      cases cut
      rw [blank c member] at solid
      cases solid

-- A number that does not fit is no line, so the cut is at a later colon.
example : (ofHeader? "a:4294967296:1:2: error: b".toList).map (·.path) =
    some "a:4294967296" := by decide +kernel

end CompilerMessage

end LintReport
