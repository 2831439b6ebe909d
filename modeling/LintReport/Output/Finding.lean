import LintReport.Output.Block
import LintReport.Yaml.Document
import LintReport.Yaml.Kind

set_option autoImplicit false

/- Exported findings. A finding carries its message either in fields of its own or
in a nested record, which wins. The fields of its own go by the type that their
scalars show; a record read directly takes the text of any scalar. A block that
holds anything else yields no findings. -/
namespace LintReport

/-- A suggested replacement as the analyzer wrote it. -/
structure RawReplacement where
  filePath : String
  offset : UInt64
  length : UInt64
  text : String
  deriving DecidableEq, Repr

structure Finding where
  rule : String
  message : String
  fileOffset : UInt64
  filePath : String
  replacements : List RawReplacement
  deriving DecidableEq, Repr

namespace Finding

/-- Reading may follow so many more aliases. -/
abbrev Reading := StateT Nat Option

/-- The node that an alias stands for. -/
def follow (d : Yaml.Document) : Yaml.Node Nat → Reading (Yaml.Node Nat)
  | .alias number => fun left =>
      match left, d.target? number with
      | left + 1, some node => some (node, left)
      | _, _ => none
  | node => pure node

def nullTag : String := "tag:yaml.org,2002:null"

/-- The meaning of a scalar. A standard tag asks for its own kind; with a local tag a
plain scalar still shows its kind; every other scalar is a text. -/
def kindOf? (tag : Option String) (text : String) (plain : Bool) : Option Yaml.Kind :=
  match tag with
  | none => some (if plain then Yaml.Kind.ofText text else .text)
  | some t =>
      if t = "tag:yaml.org,2002:bool" then if Yaml.Kind.isBool text then some .bool else none
      else if t = "tag:yaml.org,2002:int" then Yaml.Kind.integer? text.toList
      else if t = "tag:yaml.org,2002:float" then
        if Yaml.Kind.isFloat text.toList then some .float else none
      else if t = nullTag then if Yaml.Kind.isNull text then some .null else none
      else some (if plain && t.startsWith "!" then Yaml.Kind.ofText text else .text)

def offsetOf? : Yaml.Kind → Option UInt64
  | .natural n => some n.toUInt64
  | .signed 0 => some 0
  | _ => none

/-! Records read directly. -/

def readText (d : Yaml.Document) (node : Yaml.Node Nat) : Reading String := do
  match ← follow d node with
  | .scalar _ _ text _ => pure text
  | _ => failure

def readOffset (d : Yaml.Document) (node : Yaml.Node Nat) : Reading UInt64 := do
  match ← follow d node with
  | .scalar tag _ text plain => ((kindOf? tag text plain).bind offsetOf? : Option UInt64)
  | _ => failure

/-- Whether an optional value is missing. -/
def isAbsent? : Yaml.Node Nat → Option Bool
  | .scalar tag _ text true =>
      match tag with
      | none => some (text.isEmpty || Yaml.Kind.isNull text)
      | some t =>
          if t = nullTag then if Yaml.Kind.isNull text then some true else none else some false
  | _ => some false

def isEmptyScalar : Yaml.Node Nat → Bool
  | .scalar _ _ text plain => plain && text.isEmpty
  | _ => false

/-- The entries of a mapping, with the text of their keys. An empty plain scalar is
a mapping without entries. -/
def readEntries (d : Yaml.Document) (node : Yaml.Node Nat) :
    Reading (List (String × Yaml.Node Nat)) := do
  match ← follow d node with
  | .mapping _ _ entries => entries.mapM fun e => do pure (← readText d e.1, e.2)
  | node => if isEmptyScalar node then pure [] else failure

def readItems (d : Yaml.Document) (node : Yaml.Node Nat) : Reading (List (Yaml.Node Nat)) := do
  match ← follow d node with
  | .sequence _ _ items => pure items
  | node => if isEmptyScalar node then pure [] else failure

/-- The value of a field; refused when the field is there twice. -/
def field? {α : Type} (name : String) (entries : List (String × α)) : Option (Option α) :=
  match entries.filter fun e => e.1 = name with
  | [] => some none
  | [e] => some (some e.2)
  | _ => none

/-- A field read by `read`, or `default` when it is not there. -/
def readField {α β : Type} (entries : List (String × α)) (name : String) (default : β)
    (read : α → Reading β) : Reading β := do
  match ← (field? name entries : Option (Option α)) with
  | none => pure default
  | some a => read a

def readOptional {β : Type} (d : Yaml.Document) (default : β)
    (read : Yaml.Node Nat → Reading β) (node : Yaml.Node Nat) : Reading β := do
  let node ← follow d node
  if ← (isAbsent? node : Option Bool) then pure default else read node

def readReplacement (d : Yaml.Document) (node : Yaml.Node Nat) : Reading RawReplacement := do
  let entries ← readEntries d node
  let filePath ← readField entries "FilePath" "" (readText d)
  let offset ← readField entries "Offset" 0 (readOffset d)
  let length ← readField entries "Length" 0 (readOffset d)
  let text ← readField entries "ReplacementText" "" (readText d)
  pure ⟨filePath, offset, length, text⟩

/-- The part of a finding that has two places. -/
structure Body where
  message : String
  fileOffset : UInt64
  filePath : String
  replacements : List RawReplacement

def readBody (d : Yaml.Document) (node : Yaml.Node Nat) : Reading Body := do
  let entries ← readEntries d node
  let message ← readField entries "Message" "" (readText d)
  let fileOffset ← readField entries "FileOffset" 0 (readOffset d)
  let filePath ← readField entries "FilePath" "" (readText d)
  let replacements ← readField entries "Replacements" [] (readOptional d [] fun node => do
    (← readItems d node).mapM (readReplacement d))
  pure ⟨message, fileOffset, filePath, replacements⟩

/-! Records read by the kinds of their scalars. -/

/-- A value with its aliases resolved. -/
inductive Content where
  | scalar (kind : Yaml.Kind) (text : String)
  | list (items : List Content)
  | mapping (entries : List (Content × Content))
  deriving Repr

def isLocalTag (tag : Option String) : Bool := tag.any fun t => t.startsWith "!"

/-- The content of a node; at most `depth` collections may lie in each other. A local
tag or a number of more than 64 bits is refused. -/
def readContent (d : Yaml.Document) : (depth : Nat) → Yaml.Node Nat → Reading Content
  | depth, node => do
      match ← follow d node with
      | .alias _ => failure
      | .scalar tag _ text plain =>
          if isLocalTag tag then failure
          match ← (kindOf? tag text plain : Option Yaml.Kind) with
          | .wide => failure
          | kind => pure (.scalar kind text)
      | .sequence tag _ items =>
          if isLocalTag tag then failure
          match depth with
          | 0 => failure
          | depth + 1 => pure (.list (← items.mapM (readContent d depth)))
      | .mapping tag _ entries =>
          if isLocalTag tag then failure
          match depth with
          | 0 => failure
          | depth + 1 =>
              pure (.mapping (← entries.mapM fun e => do
                pure (← readContent d depth e.1, ← readContent d depth e.2)))

namespace Content

def text? : Content → Option String
  | .scalar .text s => some s
  | _ => none

def offset? : Content → Option UInt64
  | .scalar kind _ => offsetOf? kind
  | _ => none

def replacementFields : List String := ["FilePath", "Offset", "Length", "ReplacementText"]

/-- The name of a field: its text, or its number in the order of the fields. -/
def fieldName? : Content → Option String
  | .scalar .text s => some s
  | .scalar (.natural n) _ => some (replacementFields[n]?.getD "")
  | _ => none

def fieldOr {α β : Type} (entries : List (String × α)) (name : String) (default : β)
    (read : α → Option β) : Option β :=
  match field? name entries with
  | none => none
  | some none => some default
  | some (some a) => read a

/-- A replacement, as a mapping or as the list of its fields, which may end early. -/
def replacement? (c : Content) : Option RawReplacement := do
  let entries ← match c with
    | .mapping entries => entries.mapM fun e => (fieldName? e.1).map fun n => (n, e.2)
    | .list items =>
        if items.length ≤ replacementFields.length then some (replacementFields.zip items)
        else none
    | .scalar _ _ => none
  let filePath ← fieldOr entries "FilePath" "" text?
  let offset ← fieldOr entries "Offset" 0 offset?
  let length ← fieldOr entries "Length" 0 offset?
  let text ← fieldOr entries "ReplacementText" "" text?
  some ⟨filePath, offset, length, text⟩

def replacements? : Content → Option (List RawReplacement)
  | .scalar .null _ => some []
  | .list items => items.mapM replacement?
  | _ => none

def body? (entries : List (String × Content)) : Option Body := do
  let message ← fieldOr entries "Message" "" text?
  let fileOffset ← fieldOr entries "FileOffset" 0 offset?
  let filePath ← fieldOr entries "FilePath" "" text?
  let replacements ← fieldOr entries "Replacements" [] replacements?
  some ⟨message, fileOffset, filePath, replacements⟩

end Content

/-- How many collections may lie in each other in a field of a finding. -/
def contentDepth : Nat := 125

def readFinding (d : Yaml.Document) (node : Yaml.Node Nat) : Reading Finding := do
  let entries ← readEntries d node
  let isDirect (name : String) : Bool := name = "DiagnosticName" || name = "DiagnosticMessage"
  let others ← (entries.filter fun e => !isDirect e.1).mapM fun e => do
    pure (e.1, ← readContent d contentDepth e.2)
  let own ← (Content.body? others : Option Body)
  let rule ← readField entries "DiagnosticName" "" (readText d)
  let body ← readField entries "DiagnosticMessage" own (readOptional d own (readBody d))
  pure ⟨rule, body.message, body.fileOffset, body.filePath, body.replacements⟩

def readFindings (d : Yaml.Document) : Reading (List Finding) := do
  let entries ← readEntries d d.root
  readField entries "Diagnostics" [] (readOptional d [] fun node => do
    (← readItems d node).mapM (readFinding d))

/-- The findings of a block; `none` for a block that cannot be read. No more than a
hundred aliases for each part of the block are followed. -/
def ofBlock? (block : List Char) : Option (List Finding) := do
  let d ← Yaml.Document.parse? block
  (readFindings d).run' (d.size * 100)

def scan (text : List Char) : List Finding :=
  ((Block.locate? text).bind ofBlock?).getD []

end Finding

end LintReport
