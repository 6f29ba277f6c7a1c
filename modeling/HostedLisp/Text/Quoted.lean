/-!
# Quoted texts

A text between double quotes, with some of its characters escaped. Which characters are escaped,
and how, is a table of its own for each form:

* `literalEscape` -- string literals of the language; `literalUnescape?` undoes it;
* `inspectionEscape` -- inspection texts, where control characters are written as code points;
* `interchangeEscape` -- interchange texts.
-/

namespace HostedLisp.Text

/-- A text between double quotes, each character written as `escape` says. -/
def quoteWith (escape : Char → List Char) (cs : List Char) : List Char :=
  '"' :: (cs.flatMap escape ++ ['"'])

/-! ## 1. String literals -/

/-- Five characters of a string literal are written with a backslash. -/
def literalEscape : Char → List Char
  | '"' => ['\\', '"']
  | '\\' => ['\\', '\\']
  | '\n' => ['\\', 'n']
  | '\t' => ['\\', 't']
  | '\r' => ['\\', 'r']
  | c => [c]

/-- The character that stands behind a backslash in a string literal. -/
def literalUnescape? : Char → Option Char
  | 'n' => some '\n'
  | 't' => some '\t'
  | 'r' => some '\r'
  | '\\' => some '\\'
  | '"' => some '"'
  | _ => none

/-- A character is written plainly, or as a backslash and the character that reads back as it. -/
theorem literalEscape_cases (c : Char) :
    (literalEscape c = [c] ∧ c ≠ '"' ∧ c ≠ '\\') ∨
      ∃ e, literalEscape c = ['\\', e] ∧ literalUnescape? e = some c := by
  unfold literalEscape
  split
  · exact .inr ⟨_, rfl, rfl⟩
  · exact .inr ⟨_, rfl, rfl⟩
  · exact .inr ⟨_, rfl, rfl⟩
  · exact .inr ⟨_, rfl, rfl⟩
  · exact .inr ⟨_, rfl, rfl⟩
  · exact .inl ⟨rfl, by assumption, by assumption⟩

/-! ## 2. Inspection and interchange -/

/-- Whether a character is a control character. -/
def isControl (c : Char) : Bool := c.toNat < 32 || (127 ≤ c.toNat && c.toNat < 160)

/-- The escapes of inspection texts. -/
def inspectionEscape (c : Char) : List Char :=
  match c with
  | '"' => ['\\', '"']
  | '\\' => ['\\', '\\']
  | '\n' => ['\\', 'n']
  | '\t' => ['\\', 't']
  | '\r' => ['\\', 'r']
  | '\x00' => ['\\', '0']
  | c =>
    if isControl c then '\\' :: 'u' :: '\x7b' :: (Nat.toDigits 16 c.toNat ++ ['\x7d']) else [c]

/-- The escapes of interchange texts: characters below the space get four hexadecimal digits,
    unless they have a letter of their own. -/
def interchangeEscape (c : Char) : List Char :=
  match c with
  | '"' => ['\\', '"']
  | '\\' => ['\\', '\\']
  | '\n' => ['\\', 'n']
  | '\t' => ['\\', 't']
  | '\r' => ['\\', 'r']
  | '\x08' => ['\\', 'b']
  | '\x0c' => ['\\', 'f']
  | c =>
    if c.toNat < 32 then
      let digits := Nat.toDigits 16 c.toNat
      '\\' :: 'u' :: (List.replicate (4 - digits.length) '0' ++ digits)
    else [c]

/-- The inspection text of a string. -/
def inspect (s : String) : String := String.ofList (quoteWith inspectionEscape s.toList)

/-- The interchange text of a string. -/
def interchange (s : String) : String := String.ofList (quoteWith interchangeEscape s.toList)

end HostedLisp.Text
