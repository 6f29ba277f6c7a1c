import HostedLisp.Host

/-!
# The standard host functions

Arithmetic and comparison, lists, equality, tests of kind, strings, and the two functions that
reach outside, `display` and `exit`. Each takes the arguments it needs and leaves further ones
unread, so `(+ 10 2 100)` is 12.

A call with fewer arguments than the arity says does not happen (`HostFunction.call` refuses it);
`missing` is the answer that it would get.
-/

namespace HostedLisp.Host

/-! ## 1. Shapes -/

/-- The answer of a function that lacks an argument. -/
def missing : Except Error Value := .error (.runtime .missingArgument)

/-- A function of one argument without effects. -/
def unary (name description : String) (f : Value → Except Error Value) : HostFunction where
  name := name
  description := description
  arity := 1
  run args w :=
    match args with
    | a :: _ => (f a, w)
    | [] => (missing, w)

/-- A function of two arguments without effects. -/
def binary (name description : String) (f : Value → Value → Except Error Value) :
    HostFunction where
  name := name
  description := description
  arity := 2
  run args w :=
    match args with
    | a :: b :: _ => (f a b, w)
    | _ => (missing, w)

/-- A function of two numbers. The first argument is looked at first. -/
def numeric (name description : String) (f : Float → Float → Except Error Value) :
    HostFunction :=
  binary name description fun a b =>
    match a.asNumber with
    | .error e => .error e
    | .ok x =>
      match b.asNumber with
      | .error e => .error e
      | .ok y => f x y

/-- A test of one argument. -/
def test (name description : String) (f : Value → Bool) : HostFunction :=
  unary name description fun a => .ok (.boolean (f a))

/-- A question about two arguments. -/
def question (name description : String) (f : Value → Value → Except Error Bool) :
    HostFunction :=
  binary name description fun a b =>
    match f a b with
    | .error e => .error e
    | .ok answer => .ok (.boolean answer)

/-! ## 2. Numbers -/

def add : HostFunction :=
  numeric "+" "Sum of two numbers" fun x y => .ok (.number (x + y))

def subtract : HostFunction :=
  numeric "-" "Difference of two numbers" fun x y => .ok (.number (x - y))

def multiply : HostFunction :=
  numeric "*" "Product of two numbers" fun x y => .ok (.number (x * y))

/-- Neither operand of a division may be zero. -/
def divide : HostFunction :=
  numeric "/" "Quotient of two numbers" fun x y =>
    if x == 0.0 || y == 0.0 then .error .divisionByZero else .ok (.number (x / y))

def greater : HostFunction :=
  numeric ">" "True if the first number is greater" fun x y => .ok (.boolean (decide (x > y)))

def less : HostFunction :=
  numeric "<" "True if the first number is smaller" fun x y => .ok (.boolean (decide (x < y)))

def greaterOrEqual : HostFunction :=
  numeric ">=" "True if the first number is greater or equal" fun x y =>
    .ok (.boolean (decide (x ≥ y)))

def lessOrEqual : HostFunction :=
  numeric "<=" "True if the first number is smaller or equal" fun x y =>
    .ok (.boolean (decide (x ≤ y)))

/-! ## 3. Lists -/

def list : HostFunction where
  name := "list"
  description := "Build a list from the arguments"
  arity := 0
  run := Effects.list

def first : HostFunction :=
  unary "car" "First element of a pair" fun
    | .pair _ first _ => .ok first
    | v => .error (.runtime (.notPair v.display))

/-- The rest of a list that is no pair is the list itself. -/
def rest : HostFunction :=
  unary "cdr" "Rest of a pair" fun
    | .pair _ _ rest => .ok rest
    | v => if v.isList then .ok v else .error (.runtime (.notList v.display))

def cons : HostFunction where
  name := "cons"
  description := "Build a pair from two expressions"
  arity := 2
  run args w :=
    match args with
    | a :: b :: _ => w.cons a b
    | _ => (missing, w)

/-! ## 4. Equality and kinds -/

def identity : HostFunction := question "eq?" "Identity equality" Expression.distinguish

def equivalence : HostFunction :=
  question "eqv?" "Equivalence (same as eq?)" Expression.distinguish

def equality : HostFunction :=
  question "equal?" "Recursive structural equality" Expression.equivalent

def isBoolean : HostFunction :=
  test "boolean?" "Check if value is a boolean" fun
    | .boolean _ => true
    | _ => false

def isNumber : HostFunction :=
  test "number?" "Check if value is a number" fun
    | .number _ => true
    | _ => false

def isString : HostFunction :=
  test "string?" "Check if value is a string" fun
    | .string _ => true
    | _ => false

def isSymbol : HostFunction :=
  test "symbol?" "Check if value is a symbol" Expression.isSymbol

def isPair : HostFunction := test "pair?" "Check if value is a pair" Expression.isPair

/-- Procedures count as lists here too. -/
def isList : HostFunction :=
  test "list?" "Check if value is a list expression" Expression.isList

/-! ## 5. Strings -/

def stringAppend : HostFunction where
  name := "string-append"
  description := "Concatenate the arguments"
  arity := 0
  run args w := (.ok (.string (String.join (args.map Expression.display))), w)

def stringJoin : HostFunction :=
  binary "string-join" "Join list elements with a separator" fun items separator =>
    if items.isList then
      match separator.asText with
      | .error e => .error e
      | .ok text => .ok (.string (text.intercalate (items.items.map Expression.display)))
    else .error (.typeMismatch "list" items.display)

/-! ## 6. The world outside -/

/-- Shows the arguments on one line. Writing to the output is taken to succeed: where the output
    refuses the text, the call would fail with an error of its own, which is left out here. -/
def display : HostFunction where
  name := "display"
  description := "Print the arguments followed by a newline"
  arity := 0
  run args w := (.ok .unspecified, w.display (Effects.displayLine args ++ "\n"))

/-- The status is the number cut down to a whole one and held within 32 bits. -/
def exit : HostFunction :=
  unary "exit" "Terminate with a status code" fun v =>
    match v.asNumber with
    | .error e => .error e
    | .ok x => .error (.exit x.toInt32)

/-- All standard host functions. -/
def standard : List HostFunction :=
  [add, subtract, multiply, divide, greater, less, greaterOrEqual, lessOrEqual,
    list, first, rest, cons,
    identity, equivalence, equality,
    isBoolean, isNumber, isString, isSymbol, isPair, isList,
    stringAppend, stringJoin, display, exit]

end HostedLisp.Host

namespace HostedLisp

/-- The registry of the standard host functions. -/
def Registry.standard : Registry := Registry.empty.registerAll Host.standard

end HostedLisp
