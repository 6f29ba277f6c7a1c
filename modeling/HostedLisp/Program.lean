import HostedLisp.Token.Scan

/-!
# Programs

A program is a sequence of expressions. The tokens of a program derive from the grammar

    expression ::= atom | quote expression | "(" expression* ")"

and are read by a machine with a stack of unfinished constructs: an open list with the items it
has so far, or a quote that waits for its expression. A finished expression is delivered to the
innermost construct; a quote that gets its expression is itself finished.

* `ofTokens` -- the expressions of a list of tokens, up to the first end mark;
* `parse` -- the expressions of a source text;
* `write` -- the written forms, one a line.
-/

namespace HostedLisp

namespace Program

/-! ## 1. The reading machine -/

/-- An unfinished construct. -/
inductive Pending where
  /-- An open list with its items so far, the newest first. -/
  | list (items : List Datum)
  /-- A quote without its expression. -/
  | quote
deriving DecidableEq

/-- The expression that a quote mark stands for. -/
def quoted (e : Datum) : Datum := .ofItems [.symbol Keyword.quote.name, e]

/-- Delivers a finished expression to the innermost construct, or else to the finished ones. -/
def deliver (e : Datum) : List Pending → List Datum → List Pending × List Datum
  | [], done => ([], e :: done)
  | .quote :: outer, done => deliver (quoted e) outer done
  | .list items :: outer, done => (.list (e :: items) :: outer, done)

/-- Reads the tokens; `finish` is the position at which the input ends, `done` holds the finished
    expressions, the newest first. -/
def read (finish : Position) : List Token → List Pending → List Datum → Except Error (List Datum)
  | [], [], done => .ok done.reverse
  | [], .quote :: _, _ => .error (.unreadable finish .unexpectedEnd)
  | [], .list _ :: _, _ => .error (.unreadable finish .unclosedList)
  | t :: ts, stack, done =>
    match t.kind with
    | .leftBracket => read finish ts (.list [] :: stack) done
    | .quote => read finish ts (.quote :: stack) done
    | .rightBracket =>
      match stack with
      | .list items :: outer =>
        let (stack, done) := deliver (.ofItems items.reverse) outer done
        read finish ts stack done
      | _ => .error (.unreadable t.position .unexpectedClose)
    | _ =>
      match t.datum? with
      | some e =>
        let (stack, done) := deliver e stack done
        read finish ts stack done
      | none => .error (.unreadable t.position .unexpectedEnd)

/-! ## 2. Token lists and texts -/

/-- The tokens before the first end mark. -/
def body (tokens : List Token) : List Token := tokens.takeWhile fun t => !t.isFinish

/-- The position at which the input ends: that of the first end mark, or else that of the last
    token. -/
def finishPosition (tokens : List Token) : Position :=
  match tokens.find? Token.isFinish with
  | some t => t.position
  | none => (tokens.getLast?.map Token.position).getD .start

/-- The expressions of a list of tokens. There must be at least one. -/
def ofTokens (tokens : List Token) : Except Error (List Datum) :=
  if (body tokens).isEmpty then .error (.unreadable .start .unexpectedEnd)
  else read (finishPosition tokens) (body tokens) [] []

/-- The expressions of a source text. -/
def parse (source : String) : Except Error (List Datum) :=
  match Token.scan source with
  | .error e => .error e
  | .ok tokens => ofTokens tokens

/-- The written forms of expressions, one a line. -/
def lines {ι : Type} : List (Expression ι) → List Char
  | [] => []
  | [e] => e.writeOnto []
  | e :: es => e.writeOnto ('\n' :: lines es)

/-- The written form of a program. -/
def write {ι : Type} (program : List (Expression ι)) : String := String.ofList (lines program)

end Program

end HostedLisp
