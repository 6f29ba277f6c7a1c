import HostedLisp.Error

/-!
# Tokens

A token is a kind, the text it was cut from, and the place where that text begins. A literal's
kind carries its value.
-/

namespace HostedLisp

namespace Token

/-- The kinds of tokens. -/
inductive Kind where
  | leftBracket
  | rightBracket
  | quote
  | symbol
  | number (value : Float)
  | boolean (value : Bool)
  | string (text : String)
  | finish
deriving DecidableEq

namespace Kind

/-- The name of a kind. -/
def label : Kind → String
  | leftBracket => "LeftBracket"
  | rightBracket => "RightBracket"
  | quote => "Quote"
  | symbol => "Symbol"
  | number _ => "Number"
  | boolean _ => "Boolean"
  | string _ => "String"
  | finish => "Eof"

/-- A kind in words. -/
def description : Kind → String
  | leftBracket => "'('"
  | rightBracket => "')'"
  | quote => "quote"
  | symbol => "symbol"
  | number _ => "number"
  | boolean _ => "boolean"
  | string _ => "string"
  | finish => "end of input"

/-- The value of a literal. -/
def literal? : Kind → Option Datum
  | number x => some (.number x)
  | boolean b => some (.boolean b)
  | string s => some (.string s)
  | _ => none

end Kind

end Token

/-- A token of a source text. -/
structure Token where
  kind : Token.Kind
  lexeme : String
  position : Position
deriving DecidableEq

namespace Token

/-- Whether the token marks the end of the input. -/
def isFinish (t : Token) : Bool :=
  match t.kind with
  | .finish => true
  | _ => false

/-- The expression that a token is by itself: a literal's value, or the symbol it spells. -/
def datum? (t : Token) : Option Datum :=
  match t.kind with
  | .symbol => some (.symbol t.lexeme)
  | kind => kind.literal?

end Token

end HostedLisp
