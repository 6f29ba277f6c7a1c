import HostedLisp.Expression.Equality

/-!
# Host functions

A host function is provided from outside the language. It gets the values of its arguments and
may take new cells for the pairs it builds and display text; it has no way to reach a frame or a
procedure. A value refers to a host function by its place in a `Host.Table`.

* `HostFunction` -- name, description, arity and behaviour;
* `Effects` -- all that a host function may change;
* `Registry` -- host functions by name, at most one for each name.
-/

namespace HostedLisp

/-! ## 1. Effects -/

/-- All that a host function may change: the next unused cell, and the text displayed so far. -/
structure Effects where
  nextCell : Nat
  output : String
deriving DecidableEq

namespace Effects

/-- Nothing allocated, nothing displayed. -/
def initial : Effects := ⟨0, ""⟩

/-- Builds a pair. Both fields must be expressions. -/
def cons (first rest : Value) (w : Effects) : Except Error Value × Effects :=
  if !first.isExpression then (.error (.runtime (.illegalFirst first.display)), w)
  else if !rest.isExpression then (.error (.runtime (.illegalRest rest.display)), w)
  else (.ok (.pair w.nextCell first rest), { w with nextCell := w.nextCell + 1 })

/-- The chain of the given items in the cells from `cell` on. -/
def chain (cell : Nat) : List Value → Value
  | [] => .emptyList
  | v :: vs => .pair cell v (chain (cell + 1) vs)

/-- Builds a proper list. All items must be expressions. -/
def list (vs : List Value) (w : Effects) : Except Error Value × Effects :=
  match vs.filter fun v => !v.isExpression with
  | [] => (.ok (chain w.nextCell vs), { w with nextCell := w.nextCell + vs.length })
  | refused => (.error (.runtime (.notExpressions (refused.map Expression.display))), w)

/-- The values shown on one line. -/
def displayLine (vs : List Value) : String := " ".intercalate (vs.map Expression.display)

/-- Displays a text. -/
def display (text : String) (w : Effects) : Effects := { w with output := w.output ++ text }

/-- Gives cells to the pairs of a datum. -/
def label (e : Datum) (w : Effects) : Value × Effects :=
  let (v, next) := e.label w.nextCell
  (v, { w with nextCell := next })

end Effects

/-! ## 2. Host functions -/

/-- A function of the host. It is called with at least `arity` arguments. -/
structure HostFunction where
  name : String
  description : String
  arity : Nat
  run : List Value → Effects → Except Error Value × Effects

namespace HostFunction

/-- The description of a host function that has none of its own. -/
def defaultDescription : String := "Host-provided function"

/-- The inspection text of a host function. -/
def inspect (f : HostFunction) : String :=
  "FnTool \x7b name: " ++ Text.inspect f.name ++ ", arity: " ++ f.arity.repr ++ " \x7d"

/-- Calls a host function, which needs as many arguments as its arity says. -/
def call (f : HostFunction) (args : List Value) (w : Effects) : Except Error Value × Effects :=
  if args.length < f.arity then
    (.error (.hostArity f.name f.arity (args.map Expression.display)), w)
  else f.run args w

end HostFunction

/-- The host functions that values refer to. -/
abbrev Host.Table := Array HostFunction

/-! ## 3. Registries -/

/-- Host functions by name. A name registered again is replaced. -/
structure Registry where
  functions : List HostFunction

namespace Registry

/-- No host functions. -/
def empty : Registry := ⟨[]⟩

/-- The host function of the given name. -/
def get? (r : Registry) (name : String) : Option HostFunction :=
  r.functions.find? fun f => f.name == name

/-- Whether the name is registered. -/
def contains (r : Registry) (name : String) : Bool := (r.get? name).isSome

/-- Registers a host function under its name, in place of one that has it. -/
def register (r : Registry) (f : HostFunction) : Registry :=
  if r.contains f.name then ⟨r.functions.map fun g => if g.name == f.name then f else g⟩
  else ⟨r.functions ++ [f]⟩

/-- Registers host functions one after the other. -/
def registerAll (r : Registry) (fs : List HostFunction) : Registry := fs.foldl register r

/-- The host functions in the order of their names. -/
def sorted (r : Registry) : List HostFunction :=
  r.functions.mergeSort fun f g => decide (f.name ≤ g.name)

/-- The registered names in order. -/
def names (r : Registry) : List String := r.sorted.map HostFunction.name

/-- The number of registered host functions. -/
def size (r : Registry) : Nat := r.functions.length

/-- The inspection text of a registry. -/
def inspect (r : Registry) : String :=
  "ToolRegistry \x7b tools: [" ++ ", ".intercalate (r.names.map Text.inspect) ++ "] \x7d"

end Registry

end HostedLisp
