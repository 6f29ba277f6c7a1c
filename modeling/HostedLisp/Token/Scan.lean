import HostedLisp.Token

/-!
# Cutting a source text into tokens

The text is cut from left to right. Blanks and comments are skipped; every other lexeme is the
longest one that can begin where it begins:

* `(`, `)` and the quote mark;
* `#t` and `#f`;
* a string literal, up to its closing quote;
* a number, which begins with a digit, or with a minus sign before a digit, and takes all digits
  and points that follow;
* a symbol, which takes all symbol characters that follow.

`cut` returns the two parts of the text together with the proof that they make up the whole and
that the first is not empty, so that `scanFrom` ends. A lexeme that is no token fails at the
position where it begins.
-/

namespace HostedLisp

/-! ## 1. Positions -/

namespace Position

/-- The first position of a text. -/
def start : Position := ⟨0, 0⟩

/-- The position behind a character. -/
def after (p : Position) (c : Char) : Position :=
  if c = '\n' then ⟨p.line + 1, 0⟩ else ⟨p.line, p.column + 1⟩

/-- The position behind a text. -/
def afterAll (p : Position) (cs : List Char) : Position := cs.foldl after p

@[simp] theorem afterAll_nil (p : Position) : p.afterAll [] = p := rfl

@[simp] theorem afterAll_cons (p : Position) (c : Char) (cs : List Char) :
    p.afterAll (c :: cs) = (p.after c).afterAll cs := rfl

theorem afterAll_append (p : Position) (cs ds : List Char) :
    p.afterAll (cs ++ ds) = (p.afterAll cs).afterAll ds :=
  List.foldl_append

end Position

namespace Token

/-! ## 2. Classes of characters -/

/-- The characters between lexemes. -/
def isBlank (c : Char) : Bool := c == ' ' || c == '\t' || c == '\r' || c == '\n'

/-- The characters of symbols. -/
def isSymbolChar (c : Char) : Bool :=
  c.isAlphanum || ['+', '-', '.', '*', '/', '<', '=', '>', '!', '?', ':', '$', '%', '_', '&', '~',
    '^'].contains c

/-- The characters of numbers behind the sign. -/
def isNumberChar (c : Char) : Bool := c.isDigit || c == '.'

/-! ## 3. Lexemes -/

/-- A token at the beginning of a text: its kind, the lexeme, and the text behind it. -/
structure Cut (whole : List Char) where
  kind : Kind
  lexeme : List Char
  rest : List Char
  append_eq : lexeme ++ rest = whole
  lexeme_ne_nil : lexeme ≠ []

/-- The content of a string literal behind its opening quote, the text it is written in with its
    closing quote, and the text behind that. -/
structure StringBody (whole : List Char) where
  content : List Char
  written : List Char
  rest : List Char
  append_eq : written ++ rest = whole

/-- Reads a string literal behind its opening quote. -/
def stringBody : (cs : List Char) → Except SyntaxFault (StringBody cs)
  | [] => .error .unterminatedString
  | '"' :: cs => .ok ⟨[], ['"'], cs, rfl⟩
  | ['\\'] => .error .unterminatedString
  | '\\' :: c :: cs =>
    match Text.literalUnescape? c with
    | none => .error (.invalidEscape c)
    | some d =>
      match stringBody cs with
      | .error fault => .error fault
      | .ok body =>
        .ok ⟨d :: body.content, '\\' :: c :: body.written, body.rest, by simp [body.append_eq]⟩
  | c :: cs =>
    match stringBody cs with
    | .error fault => .error fault
    | .ok body => .ok ⟨c :: body.content, c :: body.written, body.rest, by simp [body.append_eq]⟩

/-- Whether a number begins here: at a digit, or at a minus sign before a digit. -/
def startsNumber (c : Char) (cs : List Char) : Bool :=
  c.isDigit || (c == '-' && (cs.head?.map Char.isDigit).getD false)

/-- Cuts a number: its first character, a digit or a sign, and the run of digits and points behind
    it, which may hold one point. -/
def cutNumber (c : Char) (cs : List Char) : Except SyntaxFault (Cut (c :: cs)) :=
  let run := cs.takeWhile isNumberChar
  let digits := if c == '-' then run else c :: run
  if digits.count '.' ≤ 1 then
    .ok ⟨.number (Number.ofRun (c == '-') digits), c :: run, cs.dropWhile isNumberChar,
      by simp [run], by simp⟩
  else .error (.invalidNumber (String.ofList (c :: run)))

/-- Cuts the lexeme that begins with `c` and is neither blank nor a comment. -/
def cut (c : Char) (cs : List Char) : Except SyntaxFault (Cut (c :: cs)) :=
  if c = '(' then .ok ⟨.leftBracket, [c], cs, rfl, by simp⟩
  else if c = ')' then .ok ⟨.rightBracket, [c], cs, rfl, by simp⟩
  else if c = '\x27' then .ok ⟨.quote, [c], cs, rfl, by simp⟩
  else if c = '#' then
    match cs with
    | [] => .error .endAfterHash
    | d :: cs =>
      if d = 't' then .ok ⟨.boolean true, [c, d], cs, rfl, by simp⟩
      else if d = 'f' then .ok ⟨.boolean false, [c, d], cs, rfl, by simp⟩
      else .error (.invalidBoolean d)
  else if c = '"' then
    match stringBody cs with
    | .error fault => .error fault
    | .ok body =>
      .ok ⟨.string (String.ofList body.content), c :: body.written, body.rest,
        by simp [body.append_eq], by simp⟩
  else if startsNumber c cs then cutNumber c cs
  else if isSymbolChar c then
    .ok ⟨.symbol, c :: cs.takeWhile isSymbolChar, cs.dropWhile isSymbolChar,
      by simp, by simp⟩
  else .error (.invalidCharacter c)

theorem Cut.rest_length_lt {whole : List Char} (k : Cut whole) :
    k.rest.length < whole.length := by
  have h := congrArg List.length k.append_eq
  have := List.length_pos_iff.2 k.lexeme_ne_nil
  simp only [List.length_append] at h
  omega

/-! ## 4. The whole text -/

/-- The tokens of a text that begins at the given position, and a last one at its end. -/
def scanFrom (position : Position) (text : List Char) : Except Error (List Token) :=
  match text with
  | [] => .ok [⟨.finish, "", position⟩]
  | c :: cs =>
    if isBlank c then scanFrom (position.after c) cs
    else if c = ';' then
      scanFrom ((position.after c).afterAll (cs.takeWhile (· ≠ '\n'))) (cs.dropWhile (· ≠ '\n'))
    else
      match cut c cs with
      | .error fault => .error (.unreadable position fault)
      | .ok k =>
        match scanFrom (position.afterAll k.lexeme) k.rest with
        | .error e => .error e
        | .ok tokens => .ok (⟨k.kind, String.ofList k.lexeme, position⟩ :: tokens)
termination_by text.length
decreasing_by
  · simp
  · exact Nat.lt_succ_of_le (List.dropWhile_suffix _).length_le
  · exact k.rest_length_lt

/-- The tokens of a source text. -/
def scan (source : String) : Except Error (List Token) := scanFrom .start source.toList

end Token

end HostedLisp
