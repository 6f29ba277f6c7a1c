import HostedLisp.Error

/-!
# Forms

What a pair asks for when it is evaluated. A pair whose first field is a keyword is a special
form, and `Form.read` checks its shape as far as that can be done without evaluating anything;
every other pair is an application. The operands of a pair are the items of its rest field.
-/

namespace HostedLisp

/-- The forms of evaluation. -/
inductive Form where
  /-- `(quote e)`: the operand itself. -/
  | constant (e : Value)
  /-- `(define x e)` -/
  | define (name : String) (e : Value)
  /-- `(set! x e)` -/
  | assign (name : String) (e : Value)
  /-- `(lambda (p ...) e ...)` -/
  | lambda (parameters body : List Value)
  /-- `(if test consequent alternative)`, where the alternative may be missing. -/
  | branch (test consequent : Value) (alternative : Option Value)
  /-- `(begin e ...)` -/
  | sequence (body : List Value)
  /-- `(let ((x e) ...) e ...)`, with the bindings still unread. -/
  | scope (bindings body : List Value)
  /-- Everything else. -/
  | application (operator : Value) (operands : List Value)
deriving DecidableEq

namespace Form

/-- The failure of a special form. -/
def malformed {α : Type} (k : Keyword) (fault : FormFault) : Except Error α :=
  .error (.malformed k.name fault)

/-- The name that `define` and `set!` bind, and the expression for its value. -/
def readBinding (k : Keyword) (operands : List Value) : Except Error (String × Value) :=
  match operands with
  | [target, e] =>
    match target with
    | .symbol name =>
      if (Keyword.ofName? name).isSome then .error (.keywordReference name) else .ok (name, e)
    | _ => malformed k (.targetNotSymbol target.display)
  | _ => malformed k (.operandCount 2 2 operands.length)

/-- The special form of a keyword. -/
def readSpecial (k : Keyword) (operands : List Value) : Except Error Form :=
  match k with
  | .quote =>
    match operands with
    | [e] => .ok (.constant e)
    | _ => malformed k (.operandCount 1 1 operands.length)
  | .define =>
    match readBinding k operands with
    | .error e => .error e
    | .ok (name, e) => .ok (.define name e)
  | .assign =>
    match readBinding k operands with
    | .error e => .error e
    | .ok (name, e) => .ok (.assign name e)
  | .lambda =>
    match operands with
    | [] => malformed k .missingParameters
    | parameters :: body =>
      if parameters.isList then .ok (.lambda parameters.items body)
      else .error (.runtime .parametersNotList)
  | .branch =>
    match operands with
    | [test, consequent] => .ok (.branch test consequent none)
    | [test, consequent, alternative] => .ok (.branch test consequent (some alternative))
    | _ => malformed k (.operandCount 2 3 operands.length)
  | .sequence => .ok (.sequence operands)
  | .scope =>
    match operands with
    | bindings :: e :: body =>
      if bindings.isList then .ok (.scope bindings.items (e :: body))
      else malformed k (.bindingsNotList bindings.display)
    | _ => malformed k .missingBindings

/-- The form of a pair with the given first field and operands. -/
def read (operator : Value) (operands : List Value) : Except Error Form :=
  match operator.keyword? with
  | some k => readSpecial k operands
  | none => .ok (.application operator operands)

/-- The name and the expression of one binding of a `let`. -/
def readLocal (binding : Value) : Except Error (String × Value) :=
  match binding.items with
  | [.symbol name, e] =>
    if (Keyword.ofName? name).isSome then .error (.keywordReference name) else .ok (name, e)
  | _ => malformed .scope (.badBinding binding.display)

end Form

end HostedLisp
