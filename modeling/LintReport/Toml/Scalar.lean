import LintReport.Text.Floating
import LintReport.Text.Search
import LintReport.Toml.Value

set_option autoImplicit false

/- Scalars written without quotes: truth values, numbers and dates. -/
namespace LintReport.Toml

/-- A run of digits of a base, with single underscores between them; gives the
digits alone. -/
def digits? (base : Nat) : List Char → Option (List Char)
  | [] => none
  | c :: rest =>
      if (Text.digitOf? base c).isNone then none
      else
        match rest with
        | [] => some [c]
        | '_' :: rest => (digits? base rest).map (c :: ·)
        | rest => (digits? base rest).map (c :: ·)

def decimal? (s : List Char) : Option (List Char) :=
  match digits? 10 s with
  | some ('0' :: _ :: _) => none
  | ds => ds

def signed : List Char → Option Bool × List Char
  | '+' :: rest => (some false, rest)
  | '-' :: rest => (some true, rest)
  | s => (none, s)

def wideLimit : Nat := UInt64.size * UInt64.size

def bounded? (n : Int) : Option Int :=
  if -(wideLimit / 2 : Nat) ≤ n ∧ n < wideLimit then some n else none

def integer? (s : List Char) : Option Int :=
  let natural (base : Nat) (ds : Option (List Char)) : Option Int :=
    ((ds.bind (Text.number? base)).map Int.ofNat).bind bounded?
  match s with
  | '0' :: 'x' :: rest => natural 16 (digits? 16 rest)
  | '0' :: 'o' :: rest => natural 8 (digits? 8 rest)
  | '0' :: 'b' :: rest => natural 2 (digits? 2 rest)
  | _ =>
      match signed s with
      | (some true, rest) =>
          (((decimal? rest).bind (Text.number? 10)).map fun n => -(n : Int)).bind bounded?
      | (_, rest) => natural 10 (decimal? rest)

def exponent? (s : List Char) : Option (List Char) :=
  match signed s with
  | (some true, rest) => (digits? 10 rest).map ('-' :: ·)
  | (_, rest) => digits? 10 rest

/-- The digits and the exponent of a fraction, written without underscores. -/
def fraction? (s : List Char) : Option (List Char) :=
  let isMantissa (c : Char) : Bool := c ≠ 'e' && c ≠ 'E'
  let mantissa := s.takeWhile isMantissa
  let exponent := s.drop mantissa.length
  let power : Option (List Char) :=
    match exponent with
    | [] => some []
    | _ :: rest => (exponent? rest).map ('e' :: ·)
  let digits : Option (List Char) :=
    match Text.splitFirst '.' mantissa with
    | some (whole, part) =>
        (decimal? whole).bind fun w => (digits? 10 part).map fun p => w ++ '.' :: p
    | none => if exponent.isEmpty then none else decimal? mantissa
  digits.bind fun d => power.map (d ++ ·)

/-- Whether a text is a number with a fraction or an exponent whose value is finite,
or one of the words for infinity and for no number. -/
def isFloat (s : List Char) : Bool :=
  let unsigned := (signed s).2
  unsigned = "inf".toList || unsigned = "nan".toList ||
    ((fraction? unsigned).bind Text.Scientific.parse?).any Text.Scientific.isFinite

def pair? : List Char → Option (Nat × List Char)
  | a :: b :: rest => (Text.number? 10 [a, b]).map fun n => (n, rest)
  | _ => none

def isLeapYear (year : Nat) : Bool :=
  (year % 4 = 0 && year % 100 ≠ 0) || year % 400 = 0

def daysIn (year month : Nat) : Nat :=
  if month = 2 then if isLeapYear year then 29 else 28
  else if month = 4 ∨ month = 6 ∨ month = 9 ∨ month = 11 then 30
  else 31

/-- A day of the calendar, and what follows it. -/
def day? : List Char → Option (List Char)
  | a :: b :: c :: d :: '-' :: rest => do
      let year ← Text.number? 10 [a, b, c, d]
      match ← pair? rest with
      | (month, '-' :: rest) =>
          let (day, rest) ← pair? rest
          if 1 ≤ month ∧ month ≤ 12 ∧ 1 ≤ day ∧ day ≤ daysIn year month then some rest
          else none
      | _ => none
  | _ => none

def seconds? : List Char → Option (List Char)
  | ':' :: rest => do
      let (second, rest) ← pair? rest
      if second > 60 then none
      match rest with
      | '.' :: rest =>
          if rest.head?.any Text.isDigit then some (rest.dropWhile Text.isDigit) else none
      | rest => some rest
  | s => some s

def clock? (s : List Char) : Option (List Char) := do
  match ← pair? s with
  | (hour, ':' :: rest) =>
      let (minute, rest) ← pair? rest
      if hour ≤ 23 ∧ minute ≤ 59 then some rest else none
  | _ => none

def time? (s : List Char) : Option (List Char) := (clock? s).bind seconds?

/-- The distance from universal time, which may be missing. -/
def offset? : List Char → Option (List Char)
  | [] => some []
  | c :: rest =>
      if c = 'Z' ∨ c = 'z' then some rest
      else if c = '+' ∨ c = '-' then clock? rest
      else none

/-- Whether a text is a day, a time, or both with or without an offset. -/
def isDate (s : List Char) : Bool :=
  match day? s with
  | some [] => true
  | some (c :: rest) =>
      (c = 'T' || c = 't' || c = ' ') && ((time? rest).bind offset?) = some []
  | none => time? s = some []

/-- The fraction of a second as it is printed: nine digits at most, no zeros at the end. -/
def plainFraction (digits : List Char) : List Char :=
  match ((digits.take 9).reverse.dropWhile (· = '0')).reverse with
  | [] => ['0']
  | kept => kept

def plainOffset (s : List Char) : List Char :=
  if s = ['z'] then ['Z'] else if s = "-00:00".toList then "+00:00".toList else s

def plainTime (s : List Char) : List Char :=
  let clock := s.takeWhile fun c => Text.isDigit c || c = ':'
  match s.drop clock.length with
  | '.' :: rest =>
      clock ++ '.' :: plainFraction (rest.takeWhile Text.isDigit) ++
        plainOffset (rest.dropWhile Text.isDigit)
  | rest => clock ++ plainOffset rest

/-- A date as it is printed: with `T` in front of the time, and a `Z` for no offset. -/
def plainDate (s : List Char) : List Char :=
  match day? s with
  | some [] => s
  | some (_ :: time) => s.take 10 ++ 'T' :: plainTime time
  | none => plainTime s

def scalar? (s : List Char) : Option Value :=
  if s = "true".toList then some (.bool true)
  else if s = "false".toList then some (.bool false)
  else
    match integer? s with
    | some n => some (.integer n)
    | none =>
        if isFloat s then some (.float (String.ofList s))
        else if isDate s then some (.date (String.ofList (plainDate s)))
        else none

end LintReport.Toml
