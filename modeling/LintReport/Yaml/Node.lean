import LintReport.Yaml.Lexer

set_option autoImplicit false

/- From tokens to the one document of a stream. Where the tokens leave a key, a
value or an entry out, an empty plain scalar stands. -/
namespace LintReport.Yaml

/-- A node of a document; `α` names what an alias stands for. -/
inductive Node (α : Type) where
  | alias (target : α)
  | scalar (tag anchor : Option String) (text : String) (plain : Bool)
  | sequence (tag anchor : Option String) (items : List (Node α))
  | mapping (tag anchor : Option String) (entries : List (Node α × Node α))
  deriving Repr, Inhabited

namespace Node

def empty {α : Type} : Node α := .scalar none none "" true

abbrev Handles := List (String × String)

def standardHandles : Handles := [("!", "!"), ("!!", "tag:yaml.org,2002:")]

structure Properties where
  tag : Option String
  anchor : Option String

def tagOf? (handles : Handles) (handle suffix : String) : Option String :=
  if handle.isEmpty then some suffix
  else (handles.find? fun h => h.1 = handle).map fun h => h.2 ++ suffix

/-- The anchor and the tag in front of a node, in either order. -/
def properties? (handles : Handles) : List Token → Option (Properties × List Token)
  | .anchor a :: .tag h s :: rest => (tagOf? handles h s).map fun t => (⟨some t, some a⟩, rest)
  | .tag h s :: .anchor a :: rest => (tagOf? handles h s).map fun t => (⟨some t, some a⟩, rest)
  | .anchor a :: rest => some (⟨none, some a⟩, rest)
  | .tag h s :: rest => (tagOf? handles h s).map fun t => (⟨some t, none⟩, rest)
  | ts => some (⟨none, none⟩, ts)

/-- A scalar with the tag `!` has no tag at all. -/
def scalarTag (p : Properties) : Option String := p.tag.filter (· ≠ "!")

def next (ts : List Token) : Token := ts.head?.getD .streamEnd

mutual

/-- A node. In the block context it may be a block collection, and as a key or
value of a block mapping also a sequence without indentation of its own. -/
def node? (handles : Handles) (block indentless : Bool) (fuel : Nat) (ts : List Token) :
    Option (Node String × List Token) :=
  match fuel, ts with
  | 0, _ => none
  | _ + 1, .alias name :: rest => some (.alias name, rest)
  | fuel + 1, ts =>
      match properties? handles ts with
      | none => none
      | some (p, ts) =>
          match ts with
          | .scalar text plain :: rest => some (.scalar (scalarTag p) p.anchor text plain, rest)
          | .flowSequenceStart :: rest =>
              (flowItems? handles true fuel rest).map fun r => (.sequence p.tag p.anchor r.1, r.2)
          | .flowMappingStart :: rest =>
              (flowEntries? handles true fuel rest).map fun r => (.mapping p.tag p.anchor r.1, r.2)
          | ts =>
              if indentless ∧ next ts = .blockEntry then
                (indentlessItems? handles fuel ts).map fun r => (.sequence p.tag p.anchor r.1, r.2)
              else if block ∧ next ts = .blockSequenceStart then
                (blockItems? handles fuel ts.tail).map fun r => (.sequence p.tag p.anchor r.1, r.2)
              else if block ∧ next ts = .blockMappingStart then
                (blockEntries? handles fuel ts.tail).map fun r => (.mapping p.tag p.anchor r.1, r.2)
              else if p.tag.isSome ∨ p.anchor.isSome then
                some (.scalar p.tag p.anchor "" true, ts)
              else none

/-- A node of the block context, or an empty one where one of `stops` comes next. -/
def blockNode? (handles : Handles) (indentless : Bool) (stops : List Token) (fuel : Nat)
    (ts : List Token) : Option (Node String × List Token) :=
  match fuel with
  | 0 => none
  | fuel + 1 =>
      if next ts ∈ stops then some (empty, ts) else node? handles true indentless fuel ts

def blockItems? (handles : Handles) (fuel : Nat) (ts : List Token) :
    Option (List (Node String) × List Token) :=
  match fuel, ts with
  | fuel + 1, .blockEntry :: rest => do
      let (item, rest) ← blockNode? handles false [.blockEntry, .blockEnd] fuel rest
      let (items, rest) ← blockItems? handles fuel rest
      some (item :: items, rest)
  | _, .blockEnd :: rest => some ([], rest)
  | _, _ => none

def indentlessItems? (handles : Handles) (fuel : Nat) (ts : List Token) :
    Option (List (Node String) × List Token) :=
  match fuel, ts with
  | 0, _ => none
  | fuel + 1, .blockEntry :: rest => do
      let (item, rest) ←
        blockNode? handles false [.blockEntry, .key, .value, .blockEnd] fuel rest
      let (items, rest) ← indentlessItems? handles fuel rest
      some (item :: items, rest)
  | _ + 1, ts => some ([], ts)

def blockEntries? (handles : Handles) (fuel : Nat) (ts : List Token) :
    Option (List (Node String × Node String) × List Token) :=
  match fuel, ts with
  | fuel + 1, .key :: rest => do
      let stops := [Token.key, .value, .blockEnd]
      let (key, rest) ← blockNode? handles true stops fuel rest
      let (value, rest) ←
        if next rest = .value then blockNode? handles true stops fuel rest.tail
        else some (empty, rest)
      let (entries, rest) ← blockEntries? handles fuel rest
      some ((key, value) :: entries, rest)
  | _, .blockEnd :: rest => some ([], rest)
  | _, _ => none

/-- A node of a flow collection, or an empty one where one of `stops` comes next. -/
def flowNode? (handles : Handles) (stops : List Token) (fuel : Nat) (ts : List Token) :
    Option (Node String × List Token) :=
  match fuel with
  | 0 => none
  | fuel + 1 => if next ts ∈ stops then some (empty, ts) else node? handles false false fuel ts

/-- The value behind a key in a flow collection; it may be missing. -/
def flowValue? (handles : Handles) (stops : List Token) (fuel : Nat) (ts : List Token) :
    Option (Node String × List Token) :=
  match fuel, ts with
  | fuel + 1, .value :: rest => flowNode? handles stops fuel rest
  | _, ts => some (empty, ts)

/-- The items of a flow sequence. A key makes a mapping of one entry; where the key
itself is missing, the token behind its indicator is lost. -/
def flowItems? (handles : Handles) (first : Bool) (fuel : Nat) (ts : List Token) :
    Option (List (Node String) × List Token) :=
  match fuel with
  | 0 => none
  | fuel + 1 =>
      if next ts = .flowSequenceEnd then some ([], ts.tail)
      else if !first ∧ next ts ≠ .flowEntry then none
      else
        let ts := if first then ts else ts.tail
        if next ts = .key then do
          let ts := ts.tail
          let (key, ts) ←
            if next ts ∈ [Token.value, .flowEntry, .flowSequenceEnd] then some (empty, ts.tail)
            else node? handles false false fuel ts
          let (value, ts) ← flowValue? handles [.flowEntry, .flowSequenceEnd] fuel ts
          let (items, ts) ← flowItems? handles false fuel ts
          some (.mapping none none [(key, value)] :: items, ts)
        else if next ts = .flowSequenceEnd then some ([], ts.tail)
        else do
          let (item, ts) ← node? handles false false fuel ts
          let (items, ts) ← flowItems? handles false fuel ts
          some (item :: items, ts)

/-- The entries of a flow mapping. An item without a key indicator is a key with
an empty value. -/
def flowEntries? (handles : Handles) (first : Bool) (fuel : Nat) (ts : List Token) :
    Option (List (Node String × Node String) × List Token) :=
  match fuel with
  | 0 => none
  | fuel + 1 =>
      if next ts = .flowMappingEnd then some ([], ts.tail)
      else if !first ∧ next ts ≠ .flowEntry then none
      else
        let ts := if first then ts else ts.tail
        if next ts = .key then do
          let (key, ts) ← flowNode? handles [.value, .flowEntry, .flowMappingEnd] fuel ts.tail
          let (value, ts) ← flowValue? handles [.flowEntry, .flowMappingEnd] fuel ts
          let (entries, ts) ← flowEntries? handles false fuel ts
          some ((key, value) :: entries, ts)
        else if next ts = .flowMappingEnd then some ([], ts.tail)
        else do
          let (key, ts) ← node? handles false false fuel ts
          let (entries, ts) ← flowEntries? handles false fuel ts
          some ((key, empty) :: entries, ts)

end

/-- The directives of a document, and the tokens behind them. A handle is declared
at most once, and so is the version, which is 1.1 or 1.2. -/
def directives? (version : Bool) (handles : Handles) : List Token → Option (Handles × List Token)
  | .version major minor :: rest =>
      if version ∨ major ≠ 1 ∨ (minor ≠ 1 ∧ minor ≠ 2) then none
      else directives? true handles rest
  | .shorthand handle start :: rest =>
      if handles.any fun h => h.1 = handle then none
      else directives? version ((handle, start) :: handles) rest
  | ts => some (handles, ts)

def startsDirective : Token → Bool
  | .version _ _ | .shorthand _ _ => true
  | _ => false

def atStreamEnd (ts : List Token) : Bool :=
  next (ts.dropWhile (· = .documentEnd)) = .streamEnd

/-- The root of the only document of a stream. A stream without a document has an
empty root. -/
def root? (ts : List Token) : Option (Node String) := do
  let fuel := 4 * ts.length + 4
  let (node, rest) ←
    if next ts = .streamEnd then some (empty, ts)
    else if startsDirective (next ts) ∨ next ts = .documentStart then do
      let (handles, ts) ← directives? false [] ts
      match ts with
      | .documentStart :: ts =>
          if startsDirective (next ts) ∨
              next ts ∈ [Token.documentStart, .documentEnd, .streamEnd] then some (empty, ts)
          else node? (handles ++ standardHandles) true false fuel ts
      | _ => none
    else node? standardHandles true false fuel ts
  if atStreamEnd rest then some node else none

end Node

end LintReport.Yaml
