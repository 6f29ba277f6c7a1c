/-!
# Reserved words

Seven names are reserved for the special forms. A symbol is its name, so a symbol is a keyword
exactly if its name is one of the seven (`Keyword.ofName?`).
-/

namespace HostedLisp

/-- The special forms of the language. -/
inductive Keyword where
  | define
  | quote
  | lambda
  | branch
  | assign
  | sequence
  | scope
deriving DecidableEq

namespace Keyword

/-- All keywords, in the order in which they are listed. -/
def all : List Keyword := [define, quote, lambda, branch, assign, sequence, scope]

/-- The spelling of a keyword. -/
def name : Keyword → String
  | define => "define"
  | quote => "quote"
  | lambda => "lambda"
  | branch => "if"
  | assign => "set!"
  | sequence => "begin"
  | scope => "let"

/-- The inspection text of a keyword. -/
def label : Keyword → String
  | define => "Define"
  | quote => "Quote"
  | lambda => "Lambda"
  | branch => "If"
  | assign => "Set"
  | sequence => "Begin"
  | scope => "Let"

/-- The keyword with the given spelling. -/
def ofName? (name : String) : Option Keyword := all.find? fun k => k.name == name

@[simp] theorem ofName?_name (k : Keyword) : ofName? k.name = some k := by
  cases k <;> decide

theorem name_of_ofName? {name : String} {k : Keyword} (h : ofName? name = some k) :
    k.name = name := by
  simpa using List.find?_some h

end Keyword

end HostedLisp
