import HostedLisp.Expression

/-!
# Errors

Everything that can go wrong, as causes. The wording of each cause is fixed in one place,
`Error.message`; the `other` constructors carry the wording of a host.
-/

namespace HostedLisp

/-- A place in a source text; lines and columns count from zero, columns in characters. -/
structure Position where
  line : Nat
  column : Nat
deriving DecidableEq

/-! ## 1. Causes -/

/-- Why a text is no program. -/
inductive SyntaxFault where
  | endAfterHash
  | invalidBoolean (c : Char)
  | invalidEscape (c : Char)
  | unterminatedString
  | invalidNumber (text : String)
  | invalidCharacter (c : Char)
  | unexpectedClose
  | unexpectedEnd
  | unclosedList
  | other (message : String)
deriving DecidableEq

/-- Why a special form is malformed. -/
inductive FormFault where
  | operandCount (least most received : Nat)
  | targetNotSymbol (shown : String)
  | missingParameters
  | emptyBody
  | missingBindings
  | bindingsNotList (shown : String)
  | badBinding (shown : String)
  | other (message : String)
deriving DecidableEq

/-- What a running program did wrong with its values. -/
inductive RuntimeFault where
  | illegalFirst (shown : String)
  | illegalRest (shown : String)
  | notExpressions (shown : List String)
  | notComparable (shown : List String)
  | parametersNotList
  | parameterNotSymbol (shown : String)
  | notPair (shown : String)
  | notList (shown : String)
  | emptySequence
  | missingArgument
  | other (message : String)
deriving DecidableEq

/-- The causes of failure. The exit of a program is one of them. -/
inductive Error where
  | unreadable (position : Position) (fault : SyntaxFault)
  | keywordReference (name : String)
  | undefinedSymbol (name : String)
  | undefinedAssignment (name : String)
  | hostArity (name : String) (expected : Nat) (received : List String)
  | procedureArity (expected received : Nat)
  | typeMismatch (expected got : String)
  | divisionByZero
  | malformed (form : String) (fault : FormFault)
  | illegalExpression (shown : String)
  | runtime (fault : RuntimeFault)
  | exit (code : Int32)
deriving DecidableEq

/-- The three kinds of failure that a host tells apart. -/
inductive ErrorKind where
  | unreadable
  | runtime
  | exit
deriving DecidableEq

/-! ## 2. Wording -/

namespace SyntaxFault

def message : SyntaxFault → String
  | endAfterHash => "Unexpected end of input after '#'"
  | invalidBoolean c => "Invalid boolean literal: #" ++ String.singleton c
  | invalidEscape c => "Invalid escape sequence \\" ++ String.singleton c
  | unterminatedString => "Unterminated string"
  | invalidNumber text => "Invalid number: " ++ text
  | invalidCharacter c => "Invalid character: " ++ String.singleton c
  | unexpectedClose => "Unexpected token ')'"
  | unexpectedEnd => "Unexpected EOF"
  | unclosedList => "Unexpected EOF, expected ')'"
  | other message => message

end SyntaxFault

namespace FormFault

/-- A count of operands in words. -/
def operandsText (least most : Nat) : String :=
  (if least = most then least.repr else least.repr ++ " or " ++ most.repr)
    ++ (if most = 1 then " operand" else " operands")

def message : FormFault → String
  | operandCount least most received =>
    "expected " ++ operandsText least most ++ ", got " ++ received.repr
  | targetNotSymbol shown => "target must be a symbol: " ++ shown
  | missingParameters => "missing parameter list"
  | emptyBody => "body must contain at least one expression"
  | missingBindings => "expected a binding list and a body"
  | bindingsNotList shown => "bindings must be a list: " ++ shown
  | badBinding shown => "binding must be (name value): " ++ shown
  | other message => message

end FormFault

namespace RuntimeFault

def message : RuntimeFault → String
  | illegalFirst shown => "Illegal car expression: " ++ shown
  | illegalRest shown => "Illegal cdr expression: " ++ shown
  | notExpressions shown => "All values must be expressions: " ++ ", ".intercalate shown
  | notComparable shown => "All arguments must be an expression: " ++ ", ".intercalate shown
  | parametersNotList => "Lambda params must be a list expression"
  | parameterNotSymbol shown => "All procedure parameters must be symbols: " ++ shown
  | notPair shown => "Argument must be a pair expression: " ++ shown
  | notList shown => "Argument must be a list expression: " ++ shown
  | emptySequence => "Cannot evaluate an empty sequence"
  | missingArgument => "Missing argument"
  | other message => message

end RuntimeFault

namespace Error

/-- The wording of an error. -/
def message : Error → String
  | unreadable position fault =>
    "A syntax error occurred (" ++ position.line.repr ++ ", " ++ position.column.repr ++ "): "
      ++ fault.message
  | keywordReference name => "Illegal reference to keyword: " ++ name
  | undefinedSymbol name => "Undefined symbol: " ++ name
  | undefinedAssignment name => "Unable to set! on undefined symbol: " ++ name
  | hostArity name expected received =>
    "Function '" ++ name ++ "' expects " ++ expected.repr ++ " arguments but received "
      ++ received.length.repr
      ++ (if received.isEmpty then "" else ": " ++ ", ".intercalate received)
  | procedureArity expected received =>
    "Procedure expected " ++ expected.repr ++ " but got " ++ received.repr
  | typeMismatch expected got => "Type error: expected " ++ expected ++ ", got " ++ got
  | divisionByZero => "Dividing by zero"
  | malformed form fault => "Malformed " ++ form ++ " expression: " ++ fault.message
  | illegalExpression shown =>
    "Illegal expression. Value is not atomic or list expression: " ++ shown
  | runtime fault => "Runtime error: " ++ fault.message
  | exit code => "An exit code of " ++ code.toInt.repr ++ " was thrown"

/-- The kind of an error. -/
def kind : Error → ErrorKind
  | unreadable .. => .unreadable
  | exit _ => .exit
  | _ => .runtime

/-- The code of an exit. -/
def exitCode? : Error → Option Int32
  | exit code => some code
  | _ => none

end Error

/-! ## 3. Views that can fail -/

namespace Expression

variable {ι : Type}

/-- The number that an expression is. -/
def asNumber : Expression ι → Except Error Float
  | number x => .ok x
  | e => .error (.typeMismatch "number" e.display)

/-- The text that an expression is. -/
def asText : Expression ι → Except Error String
  | string s => .ok s
  | e => .error (.typeMismatch "string" e.display)

/-- An ordinary symbol; keywords are refused. -/
def ordinarySymbol (name : String) : Except Error (Expression ι) :=
  if (Keyword.ofName? name).isSome then .error (.keywordReference name) else .ok (symbol name)

end Expression

end HostedLisp
