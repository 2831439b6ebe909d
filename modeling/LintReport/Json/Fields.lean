import LintReport.Json

set_option autoImplicit false

/- Records in JSON. A record with given fields is an object, whose unknown members
do not count, or an array that lists the fields in order and may end early. -/
namespace LintReport.Json

structure Fields where
  /-- Whether the record was written as an array. -/
  positional : Bool
  /-- The values of the fields, in their order. -/
  values : List (Option Json)

/-- The value of a field among the members; refused when it is there twice. -/
def memberOf? (name : String) (members : List (Option String × Json)) :
    Option (Option Json) :=
  match members.filter fun m => m.1 = some name with
  | [] => some none
  | [m] => some (some m.2)
  | _ => none

def fields? (names : List String) : Json → Option Fields
  | .object members =>
      if members.any fun m => m.1.isNone then none
      else (names.mapM fun n => memberOf? n members).map fun vs => ⟨false, vs⟩
  | .array items =>
      if items.length ≤ names.length then
        some ⟨true, items.map some ++ List.replicate (names.length - items.length) none⟩
      else none
  | _ => none

def Fields.get (f : Fields) (i : Nat) : Option Json := (f.values[i]?).join

def asText? : Json → Option String
  | .text s => some s
  | _ => none

def asNatural? (limit : Nat) : Json → Option Nat
  | .natural n => if n < limit then some n else none
  | _ => none

def asArray? : Json → Option (List Json)
  | .array items => some items
  | _ => none

end LintReport.Json
