import HostedLisp.Form
import HostedLisp.Store

/-!
# Evaluation

`eval` evaluates an expression in a frame. Evaluation need not end, so it runs on fuel: with too
little it is `unfinished`, which is an outcome of its own, and more fuel does not change any other
outcome. The branches of a condition and the last expression of a sequence, a scope and a body are
in tail position: nothing is left to do after them, so `eval` is a loop that puts them in the place
of the expression they stand in. All other expressions inside are evaluated by `eval` in turn.

* `Outcome` -- a value, a failure, or unfinished;
* `evalEach`, `evalSequence`, `evalLocals` -- operands, sequences and the bindings of a scope, over
  any evaluator of single expressions;
* `turn` -- one turn of the loop: a result, or the expression and the frame to go on with;
* `eval` -- the evaluator.
-/

namespace HostedLisp

/-- What comes out of a computation. -/
inductive Outcome (α : Type) where
  | value (a : α)
  | failure (e : Error)
  | unfinished
deriving DecidableEq

namespace Eval

/-- An outcome and the store it leaves. -/
abbrev Result (α : Type) := Outcome α × Store

/-- Goes on with the value of a result; a failure and an unfinished computation are final. -/
@[inline] def andThen {α β : Type} (r : Result α) (next : α → Store → Result β) : Result β :=
  match r with
  | (.value a, s) => next a s
  | (.failure e, s) => (.failure e, s)
  | (.unfinished, s) => (.unfinished, s)

/-- A result that changes nothing. -/
def settled {α : Type} (s : Store) : Except Error α → Result α
  | .ok a => (.value a, s)
  | .error e => (.failure e, s)

/-- Does something that changes the effects only. -/
def perform {α : Type} (s : Store) (act : Effects → Except Error α × Effects) : Result α :=
  match s with
  | ⟨frames, procedures, effects⟩ =>
    let (r, effects) := act effects
    settled ⟨frames, procedures, effects⟩ r

theorem perform_eq {α : Type} (s : Store) (act : Effects → Except Error α × Effects) :
    perform s act = settled (s.withEffects (act s.effects).2) (act s.effects).1 := by
  cases s
  rfl

/-! ## 1. Several expressions -/

section Several

variable (ev : Value → Store → Result Value)

/-- The values of expressions, from left to right. -/
def evalEach : List Value → Store → Result (List Value)
  | [], s => (.value [], s)
  | e :: es, s =>
    andThen (ev e s) fun v s =>
    andThen (evalEach es s) fun vs s => (.value (v :: vs), s)

/-- Evaluates all but the last expression of a sequence and returns the last one as it is. -/
def evalSequence : List Value → Store → Result Value
  | [], s => (.failure (.runtime .emptySequence), s)
  | [last], s => (.value last, s)
  | e :: es, s => andThen (ev e s) fun _ s => evalSequence es s

/-- The names and values of the bindings of a scope. Each binding is read when its turn comes. -/
def evalLocals : List Value → Store → Result (List (String × Value))
  | [], s => (.value [], s)
  | binding :: bindings, s =>
    andThen (settled s (Form.readLocal binding)) fun (x, e) s =>
    andThen (ev e s) fun v s =>
    andThen (evalLocals bindings s) fun rest s => (.value ((x, v) :: rest), s)

end Several

/-! ## 2. Symbols and calls -/

/-- The value of a symbol. -/
def evalSymbol (s : Store) (f : Nat) (x : String) : Except Error Value :=
  if (Keyword.ofName? x).isSome then .error (.keywordReference x)
  else
    match s.get? f x with
    | some v => .ok v
    | none => .error (.undefinedSymbol x)

/-- The list of an operator and operands that make no call. -/
def dataList (operator : Value) (args : List Value) (s : Store) : Result Value :=
  perform s (Effects.list (operator :: args))

/-! ## 3. One turn of the loop -/

/-- An evaluator: what an expression does in a frame. -/
abbrev Evaluator := Nat → Value → Store → Result Value

/-- What one turn of the loop comes to: it is over, or the loop goes on with another expression, in
    the frame that this one is to be evaluated in. -/
inductive Turn where
  | ended (r : Result Value)
  | onward (f : Nat) (e : Value) (s : Store)
deriving DecidableEq

namespace Turn

/-- Goes on with the value of a result; a failure and an unfinished computation end the loop. -/
@[inline] def after {α : Type} (r : Result α) (next : α → Store → Turn) : Turn :=
  match r with
  | (.value a, s) => next a s
  | (.failure e, s) => .ended (.failure e, s)
  | (.unfinished, s) => .ended (.unfinished, s)

/-- The result of a turn, if `ev` evaluates the expression that the loop goes on with. -/
@[inline] def finish (ev : Evaluator) : Turn → Result Value
  | .ended r => r
  | .onward f e s => ev f e s

end Turn

section Turns

variable (hosts : Host.Table) (nested : Evaluator)

/-- Enters a body in the frame `f`: all but its last expression are evaluated, and the loop goes on
    with that one. -/
def bodyTurn (f : Nat) (body : List Value) (s : Store) : Turn :=
  .after (evalSequence (nested f) body s) fun last s => .onward f last s

/-- Applies a procedure: its body is entered in the frame for the call. -/
def procedureTurn (p : Procedure) (args : List Value) (s : Store) : Turn :=
  match s.bind p args with
  | .error e => .ended (.failure e, s)
  | .ok (g, s) => bodyTurn nested g p.body s

/-- Applies the value of an operator. Procedures are applied wherever they come from; a host
    function is called through a symbol only, and one that a pair evaluates to is data. -/
def applyTurn (operator callee : Value) (args : List Value) (s : Store) : Turn :=
  match callee with
  | .hostFunction id _ =>
    match hosts[id]? with
    | none => .ended (dataList callee args s)
    | some h =>
      if operator.isPair then .ended (dataList callee args s) else .ended (perform s (h.call args))
  | .procedure id =>
    match s.procedures[id]? with
    | none => .ended (dataList callee args s)
    | some p => procedureTurn nested p args s
  | _ => .ended (dataList callee args s)

/-- Takes a form in the frame `f`. -/
def formTurn (f : Nat) (form : Form) (s : Store) : Turn :=
  match form with
  | .constant v => .ended (.value v, s)
  | .define x e => .ended (andThen (nested f e s) fun v s => (.value .unspecified, s.set f x v))
  | .assign x e =>
    if s.has f x then
      .ended (andThen (nested f e s) fun v s => (.value .unspecified, s.set f x v))
    else .ended (.failure (.undefinedAssignment x), s)
  | .lambda parameters body =>
    match s.newProcedure parameters body f with
    | .error e => .ended (.failure e, s)
    | .ok (v, s) => .ended (.value v, s)
  | .branch test consequent alternative =>
    .after (nested f test s) fun v s =>
      if v.isTruthy then .onward f consequent s
      else
        match alternative with
        | some e => .onward f e s
        | none => .ended (.value .unspecified, s)
  | .sequence body =>
    if body.isEmpty then .ended (.value .unspecified, s) else bodyTurn nested f body s
  | .scope bindings body =>
    .after (evalLocals (nested f) bindings s) fun locals s =>
      let (g, s) := s.newFrame (some f) (Bindings.setAll [] locals)
      bodyTurn nested g body s
  | .application operator operands =>
    .after (nested f operator s) fun callee s =>
    .after (evalEach (nested f) operands s) fun args s =>
      applyTurn hosts nested operator callee args s

/-- One turn of the loop: looks at an expression in the frame `f`, with an evaluator for the
    expressions inside it that are not in tail position. -/
def turn (f : Nat) (e : Value) (s : Store) : Turn :=
  match e with
  | .symbol x => .ended (settled s (evalSymbol s f x))
  | .hostFunction .. | .unspecified => .ended (.failure (.illegalExpression e.display), s)
  | .pair _ operator rest =>
    match Form.read operator rest.items with
    | .error err => .ended (.failure err, s)
    | .ok form => formTurn hosts nested f form s
  | _ => .ended (.value e, s)

end Turns

/-! ## 4. The evaluator -/

/-- Evaluates an expression in a frame: takes one turn of the loop after another. -/
def eval (hosts : Host.Table) : (fuel : Nat) → Evaluator
  | 0, _, _, s => (.unfinished, s)
  | fuel + 1, f, e, s =>
    match turn hosts (eval hosts fuel) f e s with
    | .ended r => r
    | .onward f e s => eval hosts fuel f e s

end Eval

end HostedLisp
