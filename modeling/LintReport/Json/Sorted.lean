import LintReport.Json

set_option autoImplicit false

/- JSON with the members of each object in the order of their names. -/
namespace LintReport.Json

def memberName (m : Option String × Json) : String := m.1.getD ""

mutual

def sorted : Json → Json
  | .array items => .array (sortedItems items)
  | .object members =>
      .object ((sortedMembers members).mergeSort fun a b => decide (memberName a ≤ memberName b))
  | j => j

def sortedItems : List Json → List Json
  | [] => []
  | item :: rest => item.sorted :: sortedItems rest

def sortedMembers : List (Option String × Json) → List (Option String × Json)
  | [] => []
  | (name, value) :: rest => (name, value.sorted) :: sortedMembers rest

end

end LintReport.Json
