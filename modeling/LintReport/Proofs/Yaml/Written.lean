import LintReport.Proofs.Text.Decimal
import LintReport.Yaml.Node
import Mathlib.Data.List.Chain

set_option autoImplicit false

/- Documents of nested records as a program writes them: block collections, each two columns
deeper than the one around it, texts in single quotes, whole numbers as their digits. No record
and no sequence is empty, since an empty one has no block form. -/
namespace LintReport.Yaml

/-- The characters that a quoted text can hold on one line. -/
def isInline (c : Char) : Bool := isAllowed c && !isBreak c

theorem isAlphanum_of_isDigit {c : Char} (digit : Text.isDigit c = true) :
    c.isAlphanum = true := by
  have range : c.isDigit = true := digit
  rw [Char.isAlphanum, range, Bool.or_true]

theorem ne_of_isAlphanum {c d : Char} (word : c.isAlphanum = true)
    (other : d.isAlphanum = false) : c ≠ d := by
  rintro rfl
  rw [other] at word
  cases word

theorem isAllowed_of_isAlphanum {c : Char} (word : c.isAlphanum = true) : isAllowed c = true := by
  have range : ((decide ('A'.val ≤ c.val ∧ c.val ≤ 'Z'.val) ||
      (decide ('a'.val ≤ c.val) && decide (c.val ≤ 'z'.val))) ||
        decide ('0'.val ≤ c.val) && decide (c.val ≤ '9'.val)) = true := word
  have printable : 0x20 ≤ c.toNat ∧ c.toNat ≤ 0x7E := by
    simp only [Bool.or_eq_true, Bool.and_eq_true, decide_eq_true_eq, UInt32.le_iff_toNat_le]
      at range
    change ((65 ≤ c.toNat ∧ c.toNat ≤ 90) ∨ (97 ≤ c.toNat ∧ c.toNat ≤ 122)) ∨
      (48 ≤ c.toNat ∧ c.toNat ≤ 57) at range
    omega
  simp [isAllowed, printable]

theorem isBreak_of_isAlphanum {c : Char} (word : c.isAlphanum = true) : isBreak c = false := by
  have other : ∀ d : Char, d.isAlphanum = false → c ≠ d := fun d => ne_of_isAlphanum word
  simp +decide [isBreak, other]

/-- The name of a field. A key must end within 1024 characters to be one. -/
structure Key where
  name : String
  letters : name.toList.all Char.isAlphanum = true
  filled : name.toList ≠ []
  short : name.toList.length ≤ 1024

theorem Key.word (key : Key) : ∀ c ∈ key.name.toList, c.isAlphanum = true :=
  List.all_eq_true.mp key.letters

theorem Key.exists_eq_cons (key : Key) :
    ∃ c rest, key.name.toList = c :: rest ∧ c.isAlphanum = true := by
  obtain ⟨c, rest, written⟩ := List.exists_cons_of_ne_nil key.filled
  exact ⟨c, rest, written, key.word c (written ▸ List.mem_cons_self)⟩

namespace Written

mutual

inductive Value where
  | quoted (text : String)
  | number (n : Nat)
  | record (r : Record)
  | sequence (s : Items)

inductive Record where
  | one (key : Key) (value : Value)
  | cons (key : Key) (value : Value) (rest : Record)

inductive Items where
  | one (r : Record)
  | cons (r : Record) (rest : Items)

end

/-- A text with its quotes doubled. -/
def doubled (s : List Char) : List Char := s.flatMap fun c => if c = '\'' then [c, c] else [c]

@[simp] theorem doubled_cons (c : Char) (s : List Char) :
    doubled (c :: s) = (if c = '\'' then [c, c] else [c]) ++ doubled s := List.flatMap_cons

def quote (s : String) : List Char := '\'' :: doubled s.toList ++ ['\'']

/-- A line end with the indentation behind it. -/
def newline (column : Nat) : List Char := '\n' :: List.replicate column ' '

mutual

/-- What stands behind the colon of a key at `column`. -/
def Value.text (column : Nat) : Value → List Char
  | .quoted s => ' ' :: quote s
  | .number n => ' ' :: Text.decimal n
  | .record r => newline (column + 2) ++ r.text (column + 2)
  | .sequence s => newline (column + 2) ++ s.text (column + 2)

def Record.text (column : Nat) : Record → List Char
  | .one key value => key.name.toList ++ ':' :: value.text column
  | .cons key value rest =>
      key.name.toList ++ ':' :: (value.text column ++ (newline column ++ rest.text column))

def Items.text (column : Nat) : Items → List Char
  | .one r => '-' :: ' ' :: r.text (column + 2)
  | .cons r rest =>
      '-' :: ' ' :: (r.text (column + 2) ++ (newline column ++ rest.text column))

end

mutual

def Value.tokens : Value → List Token
  | .quoted s => [.scalar s false]
  | .number n => [.scalar (String.ofList (Text.decimal n)) true]
  | .record r => .blockMappingStart :: r.tokens ++ [.blockEnd]
  | .sequence s => .blockSequenceStart :: s.tokens ++ [.blockEnd]

def Record.tokens : Record → List Token
  | .one key value => .key :: .scalar key.name true :: .value :: value.tokens
  | .cons key value rest =>
      .key :: .scalar key.name true :: .value :: value.tokens ++ rest.tokens

def Items.tokens : Items → List Token
  | .one r => .blockEntry :: .blockMappingStart :: r.tokens ++ [.blockEnd]
  | .cons r rest => .blockEntry :: .blockMappingStart :: r.tokens ++ .blockEnd :: rest.tokens

end

mutual

/-- The node that a value stands for. `α` names the targets of aliases, and there are none. -/
def Value.node (α : Type) : Value → Node α
  | .quoted s => .scalar none none s false
  | .number n => .scalar none none (String.ofList (Text.decimal n)) true
  | .record r => .mapping none none (r.entries α)
  | .sequence s => .sequence none none (s.nodes α)

def Record.entries (α : Type) : Record → List (Node α × Node α)
  | .one key value => [(.scalar none none key.name true, value.node α)]
  | .cons key value rest => (.scalar none none key.name true, value.node α) :: rest.entries α

def Items.nodes (α : Type) : Items → List (Node α)
  | .one r => [.mapping none none (r.entries α)]
  | .cons r rest => .mapping none none (r.entries α) :: rest.nodes α

end

mutual

/-- The texts in quotes. -/
def Value.texts : Value → List String
  | .quoted s => [s]
  | .number _ => []
  | .record r => r.texts
  | .sequence s => s.texts

def Record.texts : Record → List String
  | .one _ value => value.texts
  | .cons _ value rest => value.texts ++ rest.texts

def Items.texts : Items → List String
  | .one r => r.texts
  | .cons r rest => r.texts ++ rest.texts

end

/-- Whether each of the texts fits on one line. -/
def Inline (texts : List String) : Prop := ∀ s ∈ texts, ∀ c ∈ s.toList, isInline c = true

instance (texts : List String) : Decidable (Inline texts) :=
  decidable_of_iff (texts.all fun s => s.toList.all isInline) (by simp [Inline])

/-- The text of a document whose root is a record. -/
def Record.document (r : Record) : List Char := r.text 0 ++ newline 0

/-- The tokens of that document. -/
def Record.stream (r : Record) : List Token :=
  .blockMappingStart :: r.tokens ++ [.blockEnd, .streamEnd]

/-! The characters of what is written. -/

theorem isInline_of_isAlphanum {c : Char} (word : c.isAlphanum = true) : isInline c = true := by
  rw [isInline, isAllowed_of_isAlphanum word, isBreak_of_isAlphanum word]
  rfl

/-- Text that a stream may hold and in which no line behind another starts with a dot. -/
structure Tidy (s : List Char) : Prop where
  allowed : ∀ c ∈ s, isAllowed c = true
  undotted : s.IsChain fun a b => a = '\n' → b ≠ '.'

theorem Tidy.append {s t : List Char} (front : Tidy s) (back : Tidy t)
    (start : t.head? ≠ some '.') : Tidy (s ++ t) where
  allowed c member := (List.mem_append.mp member).elim (front.allowed c) (back.allowed c)
  undotted := by
    refine List.isChain_append.mpr ⟨front.undotted, back.undotted, ?_⟩
    rintro _ _ b first - rfl
    exact start first

theorem ne_newline_of_isInline {c : Char} (inside : isInline c = true) : c ≠ '\n' := by
  rintro rfl
  exact absurd inside (by decide)

theorem tidy_of_inline {s : List Char} (inside : ∀ c ∈ s, isInline c = true) : Tidy s where
  allowed c member := (Bool.and_eq_true_iff.mp (inside c member)).1
  undotted := by
    induction s with
    | nil => exact List.isChain_nil
    | cons c s ih =>
        have rest := ih fun d member => inside d (List.mem_cons_of_mem c member)
        have other := ne_newline_of_isInline (inside c List.mem_cons_self)
        exact List.isChain_cons.mpr ⟨fun _ _ equal => absurd equal other, rest⟩

theorem tidy_newline (column : Nat) : Tidy (newline column) := by
  have spaces : Tidy (List.replicate column ' ') := by
    refine tidy_of_inline fun c member => ?_
    rw [List.eq_of_mem_replicate member]
    decide
  have feed : Tidy ['\n'] := ⟨List.forall_mem_singleton.mpr (by decide), List.isChain_singleton _⟩
  refine feed.append spaces ?_
  cases column with
  | zero => simp
  | succ n => simp [List.replicate_succ]

theorem isInline_of_mem_quote {s : String} (inside : ∀ c ∈ s.toList, isInline c = true) :
    ∀ c ∈ quote s, isInline c = true := by
  have mark : isInline '\'' = true := by decide
  intro c member
  simp only [quote, doubled, List.mem_append, List.mem_cons, List.mem_flatMap, List.not_mem_nil,
    or_false] at member
  rcases member with (rfl | ⟨d, here, member⟩) | rfl
  · exact mark
  · have same : c = d := by
      split at member
      · simpa using member
      · simpa using member
    exact same ▸ inside d here
  · exact mark

theorem isInline_of_mem_decimal {n : Nat} {c : Char} (member : c ∈ Text.decimal n) :
    isInline c = true :=
  isInline_of_isAlphanum (isAlphanum_of_isDigit (Text.isDigit_of_mem_decimal member))

/-- Text that goes on like a record or a sequence, neither with a gap nor with a mark. -/
def Solid (s : List Char) : Prop := ∃ c rest, s = c :: rest ∧ (c.isAlphanum = true ∨ c = '-')

theorem Solid.append {s : List Char} (solid : Solid s) (t : List Char) : Solid (s ++ t) := by
  obtain ⟨c, rest, rfl, start⟩ := solid
  exact ⟨c, rest ++ t, rfl, start⟩

theorem Solid.head?_ne_dot {s : List Char} (solid : Solid s) : s.head? ≠ some '.' := by
  obtain ⟨c, rest, rfl, start⟩ := solid
  intro first
  cases first
  exact absurd start (by decide)

theorem Record.solid_text (column : Nat) (r : Record) : Solid (r.text column) := by
  cases r with
  | one key value =>
      obtain ⟨c, rest, written, word⟩ := key.exists_eq_cons
      exact ⟨c, _, by rw [Record.text, written, List.cons_append], Or.inl word⟩
  | cons key value others =>
      obtain ⟨c, rest, written, word⟩ := key.exists_eq_cons
      exact ⟨c, _, by rw [Record.text, written, List.cons_append], Or.inl word⟩

theorem Items.solid_text (column : Nat) (s : Items) : Solid (s.text column) := by
  cases s <;> exact ⟨'-', _, rfl, Or.inr rfl⟩

/-- A value starts with a gap, so that the colon in front of it ends a key. -/
theorem Value.head?_text (column : Nat) (v : Value) :
    (v.text column).head? = some ' ' ∨ (v.text column).head? = some '\n' := by
  cases v with
  | quoted s => exact Or.inl rfl
  | number n => exact Or.inl rfl
  | record r => exact Or.inr rfl
  | sequence s => exact Or.inr rfl

theorem Value.head?_text_ne_dot (column : Nat) (v : Value) :
    (v.text column).head? ≠ some '.' := by
  intro first
  rcases v.head?_text column with gap | gap <;> exact absurd (first.symm.trans gap) (by decide)

theorem Inline.append {s t : List String} : Inline (s ++ t) ↔ Inline s ∧ Inline t :=
  List.forall_mem_append

theorem Tidy.behind_newline {s : List Char} (tidy : Tidy s) (solid : Solid s) (column : Nat) :
    Tidy (newline column ++ s) :=
  (tidy_newline column).append tidy solid.head?_ne_dot

theorem tidy_entry (key : Key) {s : List Char} (value : Tidy s) (start : s.head? ≠ some '.') :
    Tidy (key.name.toList ++ ':' :: s) := by
  have word : Tidy (key.name.toList ++ [':']) := by
    refine tidy_of_inline fun c member => ?_
    rcases List.mem_append.mp member with name | colon
    · exact isInline_of_isAlphanum (key.word c name)
    · rw [List.mem_singleton.mp colon]
      decide
  rw [← List.singleton_append, ← List.append_assoc]
  exact word.append value start

theorem tidy_item {s : List Char} (item : Tidy s) (start : s.head? ≠ some '.') :
    Tidy ('-' :: ' ' :: s) := by
  have mark : Tidy ['-', ' '] := tidy_of_inline (List.all_eq_true.mp (by decide))
  exact mark.append item start

theorem head?_append_ne_dot {s : List Char} (start : s.head? = some ' ' ∨ s.head? = some '\n')
    (t : List Char) : (s ++ t).head? ≠ some '.' := by
  cases s with
  | nil => simp at start
  | cons c rest =>
      rintro ⟨⟩
      simp at start

mutual

theorem Value.tidy_text (column : Nat) (v : Value) (inline : Inline v.texts) :
    Tidy (v.text column) := by
  cases v with
  | quoted s =>
      refine tidy_of_inline fun c member => ?_
      rcases List.mem_cons.mp member with rfl | member
      · decide
      · exact isInline_of_mem_quote (inline s List.mem_cons_self) c member
  | number n =>
      refine tidy_of_inline fun c member => ?_
      rcases List.mem_cons.mp member with rfl | member
      · decide
      · exact isInline_of_mem_decimal member
  | record r => exact (r.tidy_text _ inline).behind_newline (r.solid_text _) (column + 2)
  | sequence s => exact (s.tidy_text _ inline).behind_newline (s.solid_text _) (column + 2)

theorem Record.tidy_text (column : Nat) (r : Record) (inline : Inline r.texts) :
    Tidy (r.text column) := by
  cases r with
  | one key value =>
      exact tidy_entry key (value.tidy_text column inline) (value.head?_text_ne_dot column)
  | cons key value rest =>
      obtain ⟨first, others⟩ := Inline.append.mp inline
      have next := (rest.tidy_text column others).behind_newline (rest.solid_text column) column
      have body := (value.tidy_text column first).append next (by simp [newline])
      exact tidy_entry key body (head?_append_ne_dot (value.head?_text column) _)

theorem Items.tidy_text (column : Nat) (s : Items) (inline : Inline s.texts) :
    Tidy (s.text column) := by
  cases s with
  | one r =>
      exact tidy_item (r.tidy_text (column + 2) inline) (r.solid_text (column + 2)).head?_ne_dot
  | cons r rest =>
      obtain ⟨first, others⟩ := Inline.append.mp inline
      have next := (rest.tidy_text column others).behind_newline (rest.solid_text column) column
      have start := ((r.solid_text (column + 2)).append (newline column ++ rest.text column))
      exact tidy_item ((r.tidy_text (column + 2) first).append next (by simp [newline]))
        start.head?_ne_dot

end

theorem Record.tidy_document (r : Record) (inline : Inline r.texts) : Tidy r.document :=
  (r.tidy_text 0 inline).append (tidy_newline 0) (by decide)

end Written

end LintReport.Yaml
