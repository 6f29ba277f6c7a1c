import HostedLisp.Expression

/-!
# Inspection texts

The texts in which a host looks at values: they name the kind of a value and show numbers and
strings unambiguously.
-/

namespace HostedLisp.Expression

/-- The inspection text of a symbol. -/
def inspectSymbol (name : String) : String := "Symbol(" ++ name ++ ")"

/-- The inspection text of a value. Procedures are known by their parameters, which `parameters`
    looks up. -/
def inspect (parameters : Nat → List Value) : Value → String
  | number x => "Number(" ++ String.ofList (Number.chars Number.inspection x) ++ ")"
  | string s => "String(" ++ Text.inspect s ++ ")"
  | boolean true => "Boolean(true)"
  | boolean false => "Boolean(false)"
  | symbol name => inspectSymbol name
  | emptyList => "EmptyList"
  | pair c first rest => "List" ++ (pair c first rest).write
  | procedure id => "Procedure((" ++ " ".intercalate ((parameters id).map write) ++ "))"
  | hostFunction _ name => "HostFunction(" ++ name ++ ")"
  | unspecified => "Unspecified"

/-- The inspection text of the two fields of a pair. -/
def inspectPair (parameters : Nat → List Value) (first rest : Value) : String :=
  "Pair(" ++ first.inspect parameters ++ ", " ++ rest.inspect parameters ++ ")"

end HostedLisp.Expression
