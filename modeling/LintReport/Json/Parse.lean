import LintReport.Json.Token

set_option autoImplicit false

/- Reading a JSON text. One step takes one token; the open arrays and objects are
kept on a stack, so that reading is a fold over the tokens. -/
namespace LintReport.Json

/-- An array or object that is still open, with the items or members before the
value that is now read, the last of them in front. -/
inductive Frame where
  | array (items : List Json)
  | object (members : List (Option String × Json)) (key : Option String)

/-- What may come next. -/
inductive State where
  | value (stack : List Frame)
  | firstItem (stack : List Frame)
  | afterItem (items : List Json) (stack : List Frame)
  | firstKey (stack : List Frame)
  | key (members : List (Option String × Json)) (stack : List Frame)
  | colon (members : List (Option String × Json)) (key : Option String) (stack : List Frame)
  | afterMember (members : List (Option String × Json)) (stack : List Frame)
  | done (value : Json)

namespace State

def deliver (v : Json) : List Frame → State
  | [] => .done v
  | .array items :: stack => .afterItem (v :: items) stack
  | .object members name :: stack => .afterMember ((name, v) :: members) stack

/-- The start of a value. -/
def start (stack : List Frame) : Token → Option State
  | .scalar v => some (deliver v stack)
  | .mark '[' => some (.firstItem stack)
  | .mark '{' => some (.firstKey stack)
  | .mark _ => none

def name? : Token → Option (Option String)
  | .scalar (.text s) => some (some s)
  | .scalar .brokenText => some none
  | _ => none

def step : State → Token → Option State
  | .value stack, t => start stack t
  | .firstItem stack, .mark ']' => some (deliver (.array []) stack)
  | .firstItem stack, t => start (.array [] :: stack) t
  | .afterItem items stack, .mark ',' => some (.value (.array items :: stack))
  | .afterItem items stack, .mark ']' => some (deliver (.array items.reverse) stack)
  | .firstKey stack, .mark '}' => some (deliver (.object []) stack)
  | .firstKey stack, t => (name? t).map fun n => .colon [] n stack
  | .key members stack, t => (name? t).map fun n => .colon members n stack
  | .colon members n stack, .mark ':' => some (.value (.object members n :: stack))
  | .afterMember members stack, .mark ',' => some (.key members stack)
  | .afterMember members stack, .mark '}' => some (deliver (.object members.reverse) stack)
  | _, _ => none

end State

def parse? (s : List Char) : Option Json :=
  match (tokens? s).bind fun ts => ts.foldlM State.step (.value []) with
  | some (.done value) => some value
  | _ => none

end LintReport.Json
