import HostedLisp.Token

/-!
# Tokens as interchange text

A token is exchanged as a JSON object with the fields `kind`, `lexeme`, `line` and `column`; the
kind is its name, or an object from its name to its value.

A number is written with the digits that read back, so a finite number is read back exactly; one
that is not finite is written as `null`, which is no number (`numberSurvives`). All other parts of
a token always survive.
-/

namespace HostedLisp.Token

/-! ## 1. Writing -/

/-- The interchange text of a number. -/
def interchangeNumber (x : Float) : String :=
  if Double.isFinite x then String.ofList (Number.chars Number.interchange x) else "null"

/-- The interchange text of a kind. -/
def interchangeKind (kind : Kind) : String :=
  let named (value : String) := "\x7b" ++ Text.interchange kind.label ++ ":" ++ value ++ "\x7d"
  match kind with
  | .number x => named (interchangeNumber x)
  | .boolean b => named (if b then "true" else "false")
  | .string s => named (Text.interchange s)
  | kind => Text.interchange kind.label

/-- The interchange text of a token. -/
def interchange (t : Token) : String :=
  "\x7b\"kind\":" ++ interchangeKind t.kind ++ ",\"lexeme\":" ++ Text.interchange t.lexeme
    ++ ",\"line\":" ++ t.position.line.repr ++ ",\"column\":" ++ t.position.column.repr ++ "\x7d"

/-! ## 2. Reading back -/

/-- Whether a number reads back as itself from its interchange text. -/
def numberSurvives (x : Float) : Bool :=
  decide (Number.ofText? (interchangeNumber x) = some x)

/-- Whether a token reads back as itself. -/
def survives (t : Token) : Bool :=
  match t.kind with
  | .number x => numberSurvives x
  | _ => true

end HostedLisp.Token
