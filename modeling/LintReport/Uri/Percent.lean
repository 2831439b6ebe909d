import LintReport.Text.Decimal

set_option autoImplicit false

/- Percent escapes in addresses. -/
namespace LintReport.Uri

def hexByte? (a b : Char) : Option UInt8 := (Text.number? 16 [a, b]).map Nat.toUInt8

/-- The bytes of a text with its `%XX` escapes resolved; a percent sign without two
digits behind it stands for itself. `skip` characters are still part of an escape. -/
def percentDecode : (skip : Nat) → List Char → List UInt8
  | _, [] => []
  | skip + 1, _ :: rest => percentDecode skip rest
  | 0, c :: rest =>
      let byte? : Option UInt8 :=
        match c, rest with
        | '%', a :: b :: _ => hexByte? a b
        | _, _ => none
      match byte? with
      | some byte => byte :: percentDecode 2 rest
      | none => String.utf8EncodeChar c ++ percentDecode 0 rest

end LintReport.Uri
