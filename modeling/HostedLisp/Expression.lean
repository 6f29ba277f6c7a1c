import HostedLisp.Keyword
import HostedLisp.Number
import HostedLisp.Text.Quoted

/-!
# Expressions

Programs and the values they compute are of one kind: numbers, strings, booleans, symbols, pairs
and the empty list, and beside them procedures, host functions and the unspecified value.

Pairs have an identity, which `eq?` can tell apart, so every pair carries a mark. The marks are of
a type `ι` of choice:

* `Datum` -- what is read from a text, where pairs have no identity yet;
* `Value` -- what a running program handles, where a pair is marked with its cell.

A procedure and a host function are references; what they refer to is kept elsewhere. So an
expression is a finite tree and every walk over it is structural.
-/

namespace HostedLisp

/-- An expression whose pairs are marked with elements of `ι`. -/
inductive Expression (ι : Type) where
  | number (value : Float)
  | string (text : String)
  | boolean (value : Bool)
  | symbol (name : String)
  | emptyList
  | pair (cell : ι) (first rest : Expression ι)
  | procedure (id : Nat)
  | hostFunction (id : Nat) (name : String)
  | unspecified
deriving DecidableEq

/-- An expression as it is read. -/
abbrev Datum := Expression Unit

/-- An expression of a running program; its pairs have cells. -/
abbrev Value := Expression Nat

namespace Expression

variable {ι : Type}

/-! ## 1. Kinds -/

/-- The name of the kind of an expression. -/
def typeName : Expression ι → String
  | number _ => "number"
  | string _ => "string"
  | boolean _ => "boolean"
  | symbol _ => "symbol"
  | emptyList => "empty-list"
  | pair .. => "pair"
  | procedure _ => "procedure"
  | hostFunction .. => "host-function"
  | unspecified => "unspecified"

/-- Numbers, strings, booleans and symbols. -/
def isAtomic : Expression ι → Bool
  | number _ | string _ | boolean _ | symbol _ => true
  | _ => false

/-- Pairs. -/
def isPair : Expression ι → Bool
  | pair .. => true
  | _ => false

/-- The empty list. -/
def isEmptyList : Expression ι → Bool
  | emptyList => true
  | _ => false

/-- Symbols, keywords included. -/
def isSymbol : Expression ι → Bool
  | symbol _ => true
  | _ => false

/-- Pairs and the empty list, and also procedures: a procedure counts as a list without items. -/
def isList : Expression ι → Bool
  | pair .. | emptyList | procedure _ => true
  | _ => false

/-- What may stand inside a pair: all but host functions and the unspecified value. -/
def isExpression (e : Expression ι) : Bool := e.isAtomic || e.isList

/-- Whether a condition with this value holds. False, zero, not-a-number, the empty string and the
    unspecified value are the ones that do not. -/
def isTruthy : Expression ι → Bool
  | boolean b => b
  | number x => x != 0.0 && !x.isNaN
  | string s => !s.isEmpty
  | unspecified => false
  | _ => true

/-- The name of a symbol. -/
def symbolName? : Expression ι → Option String
  | symbol name => some name
  | _ => none

/-- The keyword that a symbol spells. -/
def keyword? : Expression ι → Option Keyword
  | symbol name => Keyword.ofName? name
  | _ => none

/-! ## 2. Items

The items of a pair are the first fields along its chain, and then the tail if the chain does not
end in the empty list: `(1 2 . 3)` has three items. Nothing else has items. -/

/-- The items of a chain from a rest field on. -/
def restItems : Expression ι → List (Expression ι)
  | pair _ first rest => first :: rest.restItems
  | emptyList => []
  | tail => [tail]

/-- The items of a list; other expressions have none. -/
def items : Expression ι → List (Expression ι)
  | pair _ first rest => first :: rest.restItems
  | _ => []

/-- Whether a chain ends in the empty list. -/
def isProper : Expression ι → Bool
  | pair _ _ rest => rest.isProper
  | emptyList => true
  | _ => false

/-! ## 3. Written forms -/

/-- The written form of everything but a pair. -/
def atomChars : Expression ι → List Char
  | number x => Number.chars Number.plain x
  | string s => Text.quoteWith Text.literalEscape s.toList
  | boolean true => ['#', 't']
  | boolean false => ['#', 'f']
  | symbol name => name.toList
  | emptyList => ['(', ')']
  | pair .. => []
  | procedure _ => ['#', 'p', 'r', 'o', 'c', 'e', 'd', 'u', 'r', 'e']
  | hostFunction _ name => "#<builtin ".toList ++ name.toList ++ ['>']
  | unspecified => []

mutual

/-- The written form of an expression in front of the text `k`. -/
def writeOnto : Expression ι → List Char → List Char
  | pair _ first rest, k => '(' :: first.writeOnto (rest.writeRestOnto k)
  | atom, k => atom.atomChars ++ k

/-- The written form of a chain from a rest field on, its closing bracket included. -/
def writeRestOnto : Expression ι → List Char → List Char
  | pair _ first rest, k => ' ' :: first.writeOnto (rest.writeRestOnto k)
  | emptyList, k => ')' :: k
  | tail, k => ' ' :: '.' :: ' ' :: (tail.atomChars ++ ')' :: k)

end

/-- The written form: what reads back as the expression, where anything does. -/
def write (e : Expression ι) : String := String.ofList (e.writeOnto [])

/-- The display form: like the written form, but a string stands for itself. -/
def display : Expression ι → String
  | string s => s
  | e => e.write

/-! ## 4. Marks -/

/-- The expression without the marks of its pairs. -/
def erase : Expression ι → Datum
  | number x => number x
  | string s => string s
  | boolean b => boolean b
  | symbol name => symbol name
  | emptyList => emptyList
  | pair _ first rest => pair () first.erase rest.erase
  | procedure id => procedure id
  | hostFunction id name => hostFunction id name
  | unspecified => unspecified

/-- The proper list of some expressions, without identity. -/
def ofItems : List Datum → Datum
  | [] => emptyList
  | e :: es => pair () e (ofItems es)

/-- The expression with its pairs marked with cells from `next` on, and the next cell after them. -/
def label : Datum → Nat → Value × Nat
  | number x, next => (number x, next)
  | string s, next => (string s, next)
  | boolean b, next => (boolean b, next)
  | symbol name, next => (symbol name, next)
  | emptyList, next => (emptyList, next)
  | pair _ first rest, next =>
    let (first, afterFirst) := first.label (next + 1)
    let (rest, afterRest) := rest.label afterFirst
    (pair next first rest, afterRest)
  | procedure id, next => (procedure id, next)
  | hostFunction id name, next => (hostFunction id name, next)
  | unspecified, next => (unspecified, next)

/-- Marking changes nothing but the marks. -/
theorem erase_label (e : Datum) (next : Nat) : (e.label next).1.erase = e := by
  induction e generalizing next with
  | pair _ first rest ihFirst ihRest => simp only [label, erase, ihFirst, ihRest]
  | _ => rfl

end Expression

end HostedLisp
