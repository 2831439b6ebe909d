import LintReport.Json

set_option autoImplicit false

/- The tokens of a JSON text. -/
namespace LintReport.Json

inductive Token where
  | mark (c : Char)
  | scalar (value : Json)
  deriving Repr, Inhabited

/-- The code units of a quoted string, up to its closing quote. An escape `\u`
gives one unit of sixteen bits, any other character its code point. -/
def stringUnits : List Char → Option (List Nat × List Char)
  | [] => none
  | '"' :: rest => some ([], rest)
  | '\\' :: 'u' :: a :: b :: c :: d :: rest =>
      match Text.number? 16 [a, b, c, d], stringUnits rest with
      | some n, some (units, left) => some (n :: units, left)
      | _, _ => none
  | '\\' :: e :: rest =>
      let unit : Option Nat :=
        match e with
        | '"' => some 0x22
        | '\\' => some 0x5C
        | '/' => some 0x2F
        | 'b' => some 0x08
        | 'f' => some 0x0C
        | 'n' => some 0x0A
        | 'r' => some 0x0D
        | 't' => some 0x09
        | _ => none
      match unit, stringUnits rest with
      | some n, some (units, left) => some (n :: units, left)
      | _, _ => none
  | c :: rest =>
      if c.toNat < 0x20 ∨ c = '\\' then none
      else (stringUnits rest).map fun p => (c.toNat :: p.1, p.2)

/-- Joins the two halves of escaped characters. A half that stands alone is
refused. -/
def joinUnits : List Nat → Option (List Char)
  | [] => some []
  | hi :: rest =>
      if 0xD800 ≤ hi ∧ hi < 0xDC00 then
        match rest with
        | lo :: rest =>
            if 0xDC00 ≤ lo ∧ lo < 0xE000 then
              (joinUnits rest).map
                (Char.ofNat (0x10000 + (hi - 0xD800) * 0x400 + (lo - 0xDC00)) :: ·)
            else none
        | [] => none
      else if 0xDC00 ≤ hi ∧ hi < 0xE000 then none
      else (joinUnits rest).map (Char.ofNat hi :: ·)

def digits? (s : List Char) : Option (List Char × List Char) :=
  match s.takeWhile Text.isDigit with
  | [] => none
  | d :: ds => some (d :: ds, s.dropWhile Text.isDigit)

def fraction? : List Char → Option (Bool × List Char)
  | '.' :: rest => (digits? rest).map fun p => (true, p.2)
  | s => some (false, s)

/-- Skips an exponent, and says whether there was one. -/
def exponent? : List Char → Option (Bool × List Char)
  | [] => some (false, [])
  | c :: rest =>
      if c = 'e' ∨ c = 'E' then
        let unsigned := match rest with
          | '+' :: r => r
          | '-' :: r => r
          | r => r
        (digits? unsigned).map fun p => (true, p.2)
      else some (false, c :: rest)

def sign : List Char → Bool × List Char
  | '-' :: rest => (true, rest)
  | s => (false, s)

/-- The number at the front of a text. One with a sign, a fraction or an exponent
is no plain natural, and no number starts with a needless zero. -/
def number? (s : List Char) : Option (Json × List Char) :=
  match digits? (sign s).2 with
  | none => none
  | some (whole, rest) =>
      if whole.head? = some '0' ∧ whole.length > 1 then none
      else
        match fraction? rest with
        | none => none
        | some (broken, rest) =>
            match exponent? rest with
            | none => none
            | some (scaled, rest) =>
                if (sign s).1 ∨ broken ∨ scaled then some (.otherNumber, rest)
                else (Text.number? 10 whole).map fun n => (.natural n, rest)

def isSpace (c : Char) : Bool := c = ' ' || c = '\n' || c = '\t' || c = '\r'

/-- The first token of a text and the text behind it; `none` where no token can
start. -/
def token? : List Char → Option (Token × List Char)
  | [] => none
  | '"' :: rest =>
      (stringUnits rest).map fun p =>
        (.scalar (match joinUnits p.1 with
          | some chars => .text (String.ofList chars)
          | none => .brokenText), p.2)
  | 't' :: 'r' :: 'u' :: 'e' :: rest => some (.scalar (.bool true), rest)
  | 'f' :: 'a' :: 'l' :: 's' :: 'e' :: rest => some (.scalar (.bool false), rest)
  | 'n' :: 'u' :: 'l' :: 'l' :: rest => some (.scalar .null, rest)
  | c :: rest =>
      if c = '[' ∨ c = ']' ∨ c = '{' ∨ c = '}' ∨ c = ',' ∨ c = ':' then
        some (.mark c, rest)
      else (number? (c :: rest)).map fun p => (.scalar p.1, p.2)

theorem length_stringUnits {s left : List Char} {units : List Nat}
    (h : stringUnits s = some (units, left)) : left.length < s.length := by
  fun_induction stringUnits s generalizing units left with
  | case3 a b c d rest n units' left' _ _ ih =>
      simp only [Option.some.injEq, Prod.mk.injEq] at h
      have := @ih left' units' (by assumption)
      simp only [List.length_cons, ← h.2]
      omega
  | case8 c rest _ _ _ _ ih =>
      obtain ⟨⟨_, _⟩, hp, he⟩ := Option.map_eq_some_iff.mp h
      have := ih hp
      grind
  | _ => grind

theorem length_digits? {s ds rest : List Char} (h : digits? s = some (ds, rest)) :
    rest.length < s.length := by
  unfold digits? at h
  split at h
  · simp at h
  · next d ds' hd =>
      simp only [Option.some.injEq, Prod.mk.injEq] at h
      have := congrArg List.length (List.takeWhile_append_dropWhile (p := Text.isDigit) (l := s))
      simp only [List.length_append, hd, List.length_cons] at this
      rw [← h.2]
      omega

theorem length_fraction? {s rest : List Char} {b : Bool} (h : fraction? s = some (b, rest)) :
    rest.length ≤ s.length := by
  unfold fraction? at h
  split at h
  · obtain ⟨⟨_, _⟩, hp, he⟩ := Option.map_eq_some_iff.mp h
    have := length_digits? hp
    grind
  · grind

theorem length_exponent? {s rest : List Char} {b : Bool} (h : exponent? s = some (b, rest)) :
    rest.length ≤ s.length := by
  unfold exponent? at h
  split at h
  · grind
  · split at h
    · obtain ⟨⟨_, _⟩, hp, he⟩ := Option.map_eq_some_iff.mp h
      have := length_digits? hp
      grind
    · grind

theorem length_sign (s : List Char) : (sign s).2.length ≤ s.length := by
  unfold sign
  split <;> simp

theorem length_number? {s rest : List Char} {j : Json} (h : number? s = some (j, rest)) :
    rest.length < s.length := by
  have hs := length_sign s
  unfold number? at h
  split at h
  · simp at h
  · next whole r hd =>
      have h1 := length_digits? hd
      split at h
      · simp at h
      · split at h
        · simp at h
        · next hf =>
            have h2 := length_fraction? hf
            split at h
            · simp at h
            · next he =>
                have h3 := length_exponent? he
                split at h
                · grind
                · obtain ⟨n, _, hn⟩ := Option.map_eq_some_iff.mp h
                  grind

theorem length_token? {s rest : List Char} {t : Token} (h : token? s = some (t, rest)) :
    rest.length < s.length := by
  unfold token? at h
  split at h
  · simp at h
  · obtain ⟨⟨_, _⟩, hp, he⟩ := Option.map_eq_some_iff.mp h
    have := length_stringUnits hp
    grind
  · grind
  · grind
  · grind
  · split at h
    · grind
    · obtain ⟨⟨_, _⟩, hp, he⟩ := Option.map_eq_some_iff.mp h
      have := length_number? hp
      grind

/-- All tokens of a text, the spaces between them left out. -/
def tokens? (s : List Char) : Option (List Token) :=
  match s with
  | [] => some []
  | c :: rest =>
      if isSpace c then tokens? rest
      else
        match _h : token? (c :: rest) with
        | none => none
        | some (t, left) => (tokens? left).map (t :: ·)
  termination_by s.length
  decreasing_by
    · simp
    · exact length_token? _h

end LintReport.Json
