import HostedLisp.Number.Reading
import HostedLisp.Proofs.Reading.Descent

/-!
# What is written reads back

A readable expression (`Expression.isReadable`) is written so that the reader gets it back. Behind
what is written there stands a blank, a closing bracket or nothing (`Delimited`), and at each of
these the scanner stops munching, whatever it munches.

* `Number.numeral_magnitudeChars` -- a finite number is written as digits, a point and digits;
* `Token.stringBody_literalEscape` -- every character of a string survives its escape;
* `Token.Scans` -- what the tokens of a text are, wherever the text begins;
* `scans_write` -- the text of a readable expression is cut into the tokens of a derivation that
  denotes it, and what stands behind it is cut as before;
* `parse_write` -- **reading undoes writing**.
-/

namespace HostedLisp

/-! ## 1. Readable expressions -/

namespace Token

/-- The names that are read as symbols: runs of symbol characters that do not begin as a number
    does. -/
def isSymbolName : List Char → Bool
  | [] => false
  | c :: cs => (c :: cs).all isSymbolChar && !startsNumber c cs

end Token

namespace Expression

variable {ι : Type}

/-- The expressions that have a text of their own: finite numbers, strings, booleans, symbols with
    a readable name, the empty list, and the proper lists of readable expressions. -/
def isReadable : Expression ι → Bool
  | number x => Double.isFinite x
  | string _ | boolean _ | emptyList => true
  | symbol name => Token.isSymbolName name.toList
  | pair _ first rest => first.isReadable && rest.isProper && rest.isReadable
  | procedure _ | hostFunction .. | unspecified => false

/-- What was read has no marks to lose. -/
theorem erase_datum (e : Datum) : e.erase = e := by
  induction e with
  | pair _ first rest ihFirst ihRest => rw [erase, ihFirst, ihRest]
  | _ => rfl

/-- A proper list is the list of its items. -/
theorem erase_eq_ofItems {e : Expression ι} (h : e.isProper = true) :
    e.erase = ofItems (e.restItems.map erase) := by
  induction e with
  | pair _ first rest _ ihRest =>
    rw [isProper] at h
    rw [erase, ihRest h, restItems, List.map_cons, ofItems]
  | emptyList => rfl
  | _ => cases h

end Expression

/-! ## 2. The texts of numbers -/

namespace Number

/-- Digits, at least one, and behind them perhaps a point and more digits. -/
inductive Numeral : List Char → Prop where
  | whole {ds : List Char} (hne : ds ≠ []) (h : ∀ c ∈ ds, c.isDigit = true) : Numeral ds
  | point {ds fraction : List Char} (hne : ds ≠ []) (h : ∀ c ∈ ds, c.isDigit = true)
      (hf : ∀ c ∈ fraction, c.isDigit = true) : Numeral (ds ++ '.' :: fraction)

theorem isDigit_replicate {n : Nat} {c : Char} (h : c ∈ List.replicate n '0') :
    c.isDigit = true := by
  obtain ⟨-, rfl⟩ := List.mem_replicate.1 h
  rfl

/-- A decimal is written positionally as a numeral. -/
theorem numeral_positional (d : Decimal) : Numeral (d.positional false) := by
  have hd : ∀ c ∈ d.digits, c.isDigit = true := fun c => Decimal.isDigit_of_mem_digits
  have hne : d.digits ≠ [] := Nat.toDigits_ne_nil
  unfold Decimal.positional
  split
  · rename_i up _
    refine .whole (by simp [hne]) fun c hc => ?_
    simp only [Bool.false_eq_true, if_false, List.append_nil, List.mem_append] at hc
    exact hc.elim (hd c) isDigit_replicate
  · rename_i down _
    dsimp only
    split
    · rename_i hlt
      refine .point (fun h => ?_) (fun c hc => hd c (List.mem_of_mem_take hc))
        fun c hc => hd c (List.mem_of_mem_drop hc)
      have hl := congrArg List.length h
      rw [List.length_take, List.length_nil] at hl
      omega
    · have hp : Numeral (['0'] ++ '.' :: (List.replicate (down + 1 - d.digits.length) '0'
          ++ d.digits)) :=
        .point (by simp) (by simp) fun c hc =>
          (List.mem_append.1 hc).elim isDigit_replicate (hd c)
      exact hp

/-- **A finite number is written as a numeral** behind its sign. -/
theorem numeral_magnitudeChars (x : Float) : Numeral (magnitudeChars plain x) := by
  rw [magnitudeChars_plain]
  exact numeral_positional _

theorem Numeral.head {run : List Char} (h : Numeral run) :
    ∃ d ds, run = d :: ds ∧ d.isDigit = true := by
  cases h with
  | whole hne h =>
    cases run with
    | nil => exact absurd rfl hne
    | cons d ds => exact ⟨d, ds, rfl, h d List.mem_cons_self⟩
  | @point ds fraction hne h hf =>
    cases ds with
    | nil => exact absurd rfl hne
    | cons d ds => exact ⟨d, ds ++ '.' :: fraction, rfl, h d List.mem_cons_self⟩

theorem isNumberChar_of_isDigit {c : Char} (h : c.isDigit = true) :
    Token.isNumberChar c = true := by
  rw [Token.isNumberChar, h, Bool.true_or]

theorem Numeral.isNumberChar {run : List Char} (h : Numeral run) :
    ∀ c ∈ run, Token.isNumberChar c = true := by
  intro c hc
  cases h with
  | whole hne h => exact isNumberChar_of_isDigit (h c hc)
  | point hne h hf =>
    rcases List.mem_append.1 hc with hc | hc
    · exact isNumberChar_of_isDigit (h c hc)
    · rcases List.mem_cons.1 hc with rfl | hc
      · rfl
      · exact isNumberChar_of_isDigit (hf c hc)

/-- Among digits there is no point. -/
theorem count_point_of_isDigit {ds : List Char} (h : ∀ c ∈ ds, c.isDigit = true) :
    ds.count '.' = 0 := by
  rw [List.count_eq_zero]
  intro hc
  exact absurd (h _ hc) (by decide)

theorem Numeral.count_point_le {run : List Char} (h : Numeral run) : run.count '.' ≤ 1 := by
  cases h with
  | whole hne h =>
    rw [count_point_of_isDigit h]
    exact Nat.zero_le 1
  | point hne h hf =>
    rw [List.count_append, List.count_cons, count_point_of_isDigit h, count_point_of_isDigit hf]
    decide

end Number

/-! ## 3. Where the scanner stops -/

namespace Token

/-- Nothing, a blank that is written between expressions, or a closing bracket. -/
def Delimited (k : List Char) : Prop := ∀ c ∈ k.head?, c = ' ' ∨ c = '\n' ∨ c = ')'

theorem delimited_nil : Delimited [] := nofun

theorem delimited_cons {c : Char} (h : c = ' ' ∨ c = '\n' ∨ c = ')') (k : List Char) :
    Delimited (c :: k) := by
  intro d hd
  cases hd
  exact h

/-- No delimiter is in a class of characters that has none of the three. -/
theorem Delimited.head_eq_false {k : List Char} (hk : Delimited k) {p : Char → Bool}
    (h : p ' ' = false ∧ p '\n' = false ∧ p ')' = false) : ∀ c ∈ k.head?, p c = false := by
  intro c hc
  rcases hk c hc with rfl | rfl | rfl
  · exact h.1
  · exact h.2.1
  · exact h.2.2

/-- No character is blank that is in a class without blanks. -/
theorem isBlank_eq_false {p : Char → Bool} {c : Char} (hc : p c = true)
    (h : p ' ' = false ∧ p '\t' = false ∧ p '\r' = false ∧ p '\n' = false) :
    isBlank c = false := by
  cases hb : isBlank c with
  | false => rfl
  | true =>
    simp only [isBlank, Bool.or_eq_true, beq_iff_eq] at hb
    rcases hb with ((rfl | rfl) | rfl) | rfl <;> simp_all

/-- A run of characters ends where one comes that is not in their class. -/
theorem munch {p : Char → Bool} {run k : List Char} (hr : ∀ c ∈ run, p c = true)
    (hk : ∀ c ∈ k.head?, p c = false) :
    (run ++ k).takeWhile p = run ∧ (run ++ k).dropWhile p = k := by
  rw [List.takeWhile_append_of_pos hr, List.dropWhile_append_of_pos hr]
  cases k with
  | nil => exact ⟨List.append_nil run, rfl⟩
  | cons c k =>
    have hc : ¬ p c = true := by rw [hk c rfl]; decide
    rw [List.takeWhile_cons_of_neg hc, List.dropWhile_cons_of_neg hc]
    exact ⟨List.append_nil run, rfl⟩

/-- The text begins with a lexeme of the given kind, behind which `rest` comes. -/
inductive Begins : (text : List Char) → Kind → (lexeme rest : List Char) → Prop where
  | cut {c : Char} {cs : List Char} (k : Cut (c :: cs)) (hb : isBlank c = false) (hc : c ≠ ';')
      (h : Token.cut c cs = .ok k) : Begins (c :: cs) k.kind k.lexeme k.rest

theorem begins_leftBracket (k : List Char) : Begins ('(' :: k) .leftBracket ['('] k :=
  .cut ⟨.leftBracket, ['('], k, rfl, nofun⟩ rfl (by decide) rfl

theorem begins_rightBracket (k : List Char) : Begins (')' :: k) .rightBracket [')'] k :=
  .cut ⟨.rightBracket, [')'], k, rfl, nofun⟩ rfl (by decide) rfl

theorem begins_true (k : List Char) : Begins ('#' :: 't' :: k) (.boolean true) ['#', 't'] k :=
  .cut ⟨.boolean true, ['#', 't'], k, rfl, nofun⟩ rfl (by decide) rfl

theorem begins_false (k : List Char) : Begins ('#' :: 'f' :: k) (.boolean false) ['#', 'f'] k :=
  .cut ⟨.boolean false, ['#', 'f'], k, rfl, nofun⟩ rfl (by decide) rfl

/-! ## 4. Strings -/

theorem stringBody_plain {c : Char} (cs : List Char) (hq : c ≠ '"') (hb : c ≠ '\\')
    {body : StringBody cs} (h : stringBody cs = .ok body) :
    ∃ longer : StringBody (c :: cs), stringBody (c :: cs) = .ok longer ∧
      longer.content = c :: body.content ∧ longer.rest = body.rest := by
  rw [stringBody, h]
  · exact ⟨_, rfl, rfl, rfl⟩
  · exact hq
  · exact fun hc _ => hb hc
  · exact fun _ _ hc _ => hb hc

theorem stringBody_escaped {c d : Char} (cs : List Char) (hu : Text.literalUnescape? d = some c)
    {body : StringBody cs} (h : stringBody cs = .ok body) :
    ∃ longer : StringBody ('\\' :: d :: cs), stringBody ('\\' :: d :: cs) = .ok longer ∧
      longer.content = c :: body.content ∧ longer.rest = body.rest := by
  simp only [stringBody, hu, h]
  exact ⟨_, rfl, rfl, rfl⟩

/-- **Every character of a string survives its escape**, and the literal ends at its own closing
    quote. -/
theorem stringBody_literalEscape (cs k : List Char) :
    ∃ body, stringBody (cs.flatMap Text.literalEscape ++ '"' :: k) = .ok body ∧
      body.content = cs ∧ body.rest = k := by
  induction cs with
  | nil => exact ⟨_, rfl, rfl, rfl⟩
  | cons c cs ih =>
    obtain ⟨body, hbody, hcontent, hrest⟩ := ih
    rw [List.flatMap_cons, List.append_assoc]
    rcases Text.literalEscape_cases c with ⟨he, hq, hb⟩ | ⟨d, he, hu⟩
    · obtain ⟨longer, hl, hc, hr⟩ := stringBody_plain _ hq hb hbody
      rw [he]
      exact ⟨longer, hl, by rw [hc, hcontent], by rw [hr, hrest]⟩
    · obtain ⟨longer, hl, hc, hr⟩ := stringBody_escaped _ hu hbody
      rw [he]
      exact ⟨longer, hl, by rw [hc, hcontent], by rw [hr, hrest]⟩

/-- A string literal is cut off with its quotes. -/
theorem begins_of_stringBody {cs : List Char} {body : StringBody cs}
    (h : stringBody cs = .ok body) :
    Begins ('"' :: cs) (.string (String.ofList body.content)) ('"' :: body.written) body.rest := by
  have hc : cut '"' cs = .ok ⟨.string (String.ofList body.content), '"' :: body.written, body.rest,
      by rw [List.cons_append, body.append_eq], nofun⟩ := by
    simp only [cut, h, Char.reduceEq, if_false, if_true]
  exact .cut _ (by decide) (by decide) hc

theorem begins_string (s : String) (k : List Char) :
    ∃ lexeme, Begins (Text.quoteWith Text.literalEscape s.toList ++ k) (.string s) lexeme k := by
  obtain ⟨body, hbody, hcontent, hrest⟩ := stringBody_literalEscape s.toList k
  have ht : Text.quoteWith Text.literalEscape s.toList ++ k
      = '"' :: (s.toList.flatMap Text.literalEscape ++ '"' :: k) := by
    rw [Text.quoteWith, List.cons_append, List.append_assoc, List.singleton_append]
  have hs : String.ofList body.content = s := by rw [hcontent, String.ofList_toList]
  have hb := begins_of_stringBody hbody
  rw [hs, hrest] at hb
  rw [ht]
  exact ⟨_, hb⟩

/-! ## 5. Numbers and symbols -/

/-- A number is cut where one begins: no other lexeme begins with a digit or a minus sign. -/
theorem cut_of_startsNumber {c : Char} {cs : List Char} (h : startsNumber c cs = true) :
    cut c cs = cutNumber c cs := by
  have hne : ∀ d, startsNumber d cs = false → c ≠ d := by
    rintro d hd rfl
    rw [h] at hd
    cases hd
  unfold cut
  rw [if_neg (hne _ rfl), if_neg (hne _ rfl), if_neg (hne _ rfl), if_neg (hne _ rfl),
    if_neg (hne _ rfl), if_pos h]

/-- The sign of a number. -/
def minus (negative : Bool) : List Char := if negative then ['-'] else []

/-- A numeral is a lexeme, behind a minus sign or without one, where no digit or point follows. -/
theorem begins_numeral {run k : List Char} (hrun : Number.Numeral run)
    (hend : ∀ c ∈ k.head?, isNumberChar c = false) (negative : Bool) :
    Begins (minus negative ++ run ++ k) (.number (Number.ofRun negative run))
      (minus negative ++ run) k := by
  obtain ⟨d, ds, rfl, hd⟩ := hrun.head
  cases negative with
  | true =>
    obtain ⟨htake, hdrop⟩ := munch hrun.isNumberChar hend
    have hs : startsNumber '-' (d :: ds ++ k) = true := by simp [startsNumber, hd]
    have hc : cut '-' (d :: ds ++ k) = .ok ⟨.number (Number.ofRun true (d :: ds)), '-' :: d :: ds,
        k, rfl, nofun⟩ := by
      rw [cut_of_startsNumber hs]
      simp only [cutNumber, htake, hdrop, beq_self_eq_true, if_true, hrun.count_point_le]
    exact .cut _ (by decide) (by decide) hc
  | false =>
    obtain ⟨htake, hdrop⟩ := munch
      (fun c hc => hrun.isNumberChar c (List.mem_cons_of_mem d hc)) hend
    have hs : startsNumber d (ds ++ k) = true := by simp [startsNumber, hd]
    have hm : (d == '-') = false := by
      rw [beq_eq_false_iff_ne]
      rintro rfl
      cases hd
    have hc : cut d (ds ++ k) = .ok ⟨.number (Number.ofRun false (d :: ds)), d :: ds, k, rfl,
        nofun⟩ := by
      rw [cut_of_startsNumber hs]
      simp only [cutNumber, htake, hdrop, hm, Bool.false_eq_true, if_false, if_true,
        hrun.count_point_le]
    refine .cut _ (isBlank_eq_false hd (by decide)) ?_ hc
    rintro rfl
    cases hd

/-- A symbol is cut where a symbol character begins no number. -/
theorem cut_of_isSymbolChar {c : Char} {cs : List Char} (hc : isSymbolChar c = true)
    (hs : startsNumber c cs = false) :
    cut c cs = .ok ⟨.symbol, c :: cs.takeWhile isSymbolChar, cs.dropWhile isSymbolChar, by simp,
      nofun⟩ := by
  have hne : ∀ d, isSymbolChar d = false → c ≠ d := by
    rintro d hd rfl
    rw [hc] at hd
    cases hd
  unfold cut
  rw [if_neg (hne _ rfl), if_neg (hne _ rfl), if_neg (hne _ rfl), if_neg (hne _ rfl),
    if_neg (hne _ rfl), if_neg (by rw [hs]; decide), if_pos hc]

/-- What stands behind a name does not make it begin as a number. -/
theorem startsNumber_append {c : Char} {cs k : List Char}
    (hend : ∀ d ∈ k.head?, isSymbolChar d = false) :
    startsNumber c (cs ++ k) = startsNumber c cs := by
  cases cs with
  | cons d cs => rfl
  | nil =>
    cases k with
    | nil => rfl
    | cons d k =>
      have hd : d.isDigit = false := by
        have hs := hend d rfl
        simp only [isSymbolChar, Char.isAlphanum, Bool.or_eq_false_iff] at hs
        exact hs.1.2
      simp [startsNumber, hd]

/-- A name is a lexeme where no symbol character follows. -/
theorem begins_symbol {name k : List Char} (hn : isSymbolName name = true)
    (hend : ∀ c ∈ k.head?, isSymbolChar c = false) : Begins (name ++ k) .symbol name k := by
  cases name with
  | nil => cases hn
  | cons c cs =>
    rw [isSymbolName, Bool.and_eq_true, List.all_eq_true, Bool.not_eq_true'] at hn
    obtain ⟨hall, hstart⟩ := hn
    have hc : isSymbolChar c = true := hall c List.mem_cons_self
    obtain ⟨htake, hdrop⟩ := munch (fun d hd => hall d (List.mem_cons_of_mem c hd)) hend
    have hcut := cut_of_isSymbolChar hc ((startsNumber_append hend).trans hstart)
    simp only [htake, hdrop] at hcut
    refine .cut _ (isBlank_eq_false hc (by decide)) ?_ hcut
    rintro rfl
    cases hc

/-! ## 6. Scanning -/

/-- Wherever the text begins, it is cut into tokens of which `P` holds. -/
def Scans (text : List Char) (P : List Token → Prop) : Prop :=
  ∀ p, ∃ ts, scanFrom p text = .ok ts ∧ P ts

theorem Scans.mono {text : List Char} {P Q : List Token → Prop} (h : Scans text P)
    (hPQ : ∀ ts, P ts → Q ts) : Scans text Q := by
  intro p
  obtain ⟨ts, hts, hP⟩ := h p
  exact ⟨ts, hts, hPQ ts hP⟩

theorem scans_nil : Scans [] fun ts => ∃ p, ts = [⟨.finish, "", p⟩] := by
  intro p
  exact ⟨_, by rw [scanFrom], p, rfl⟩

/-- A blank is skipped. -/
theorem Scans.blank {c : Char} {text : List Char} {P : List Token → Prop} (hc : isBlank c = true)
    (h : Scans text P) : Scans (c :: text) P := by
  intro p
  obtain ⟨ts, hts, hP⟩ := h (p.after c)
  refine ⟨ts, ?_, hP⟩
  rw [scanFrom, if_pos hc, hts]

/-- A lexeme becomes a token. -/
theorem scanFrom_of_begins {text lexeme rest : List Char} {kind : Kind} {p : Position}
    {us : List Token} (hb : Begins text kind lexeme rest)
    (hus : scanFrom (p.afterAll lexeme) rest = .ok us) :
    scanFrom p text = .ok (⟨kind, String.ofList lexeme, p⟩ :: us) := by
  cases hb with
  | cut k hblank hc hcut =>
    rw [scanFrom, if_neg (by rw [hblank]; decide), if_neg hc, hcut]
    simp only [hus]

theorem Scans.begins {text lexeme rest : List Char} {kind : Kind} {P : List Token → Prop}
    (hb : Begins text kind lexeme rest) (h : Scans rest P) :
    Scans text fun ts => ∃ p us, ts = ⟨kind, String.ofList lexeme, p⟩ :: us ∧ P us := by
  intro p
  obtain ⟨us, hus, hP⟩ := h (p.afterAll lexeme)
  exact ⟨_, scanFrom_of_begins hb hus, p, us, rfl, hP⟩

end Token

/-! ## 7. Expressions -/

namespace Program

open Token

variable {ι : Type}

/-- The tokens begin with a derivation of `e`, and `P` holds of those behind it. -/
def Derives (e : Datum) (P : List Token → Prop) (ts : List Token) : Prop :=
  ∃ (T : Tree) (us : List Token), ts = T.tokens ++ us ∧ T.datum = e ∧ P us

/-- The tokens begin with a derivation of `es` and a closing bracket, and `P` holds of those behind
    it. -/
def Closes (es : List Datum) (P : List Token → Prop) (ts : List Token) : Prop :=
  ∃ (F : Forest) (closing : Token) (us : List Token), closing.kind = .rightBracket ∧
    ts = F.tokens ++ closing :: us ∧ F.data = es ∧ P us

/-- A lexeme that denotes something is a derivation. -/
theorem scans_atom {text lexeme k : List Char} {kind : Kind} {e : Datum} {P : List Token → Prop}
    (hb : Begins text kind lexeme k) (hd : ∀ p, Denotes ⟨kind, String.ofList lexeme, p⟩ e)
    (hk : Scans k P) : Scans text (Derives e P) := by
  refine (Scans.begins hb hk).mono ?_
  rintro ts ⟨p, us, rfl, hP⟩
  exact ⟨.atom _ e (hd p), us, rfl, rfl, hP⟩

/-- Items behind an opening bracket are a derivation of their list. -/
theorem scans_list {text : List Char} {es : List Datum} {P : List Token → Prop}
    (h : Scans text (Closes es P)) : Scans ('(' :: text) (Derives (.ofItems es) P) := by
  refine (Scans.begins (begins_leftBracket text) h).mono ?_
  rintro ts ⟨p, us, rfl, F, closing, ws, hc, rfl, rfl, hP⟩
  refine ⟨.list ⟨.leftBracket, "(", p⟩ rfl F closing hc, ws, ?_, rfl, hP⟩
  rw [Tree.tokens, List.cons_append, List.append_assoc, List.singleton_append]

/-- One item in front of others. -/
theorem Derives.closes {e : Datum} {es : List Datum} {P : List Token → Prop} {ts : List Token}
    (h : Derives e (Closes es P) ts) : Closes (e :: es) P ts := by
  obtain ⟨T, us, rfl, rfl, F, closing, ws, hc, rfl, rfl, hP⟩ := h
  refine ⟨.cons T F, closing, ws, hc, ?_, rfl, hP⟩
  rw [Forest.tokens, List.append_assoc]

/-- No items. -/
theorem scans_close {k : List Char} {P : List Token → Prop} (hk : Scans k P) :
    Scans (')' :: k) (Closes [] P) := by
  refine (Scans.begins (begins_rightBracket k) hk).mono ?_
  rintro ts ⟨p, us, rfl, hP⟩
  exact ⟨.nil, _, us, rfl, rfl, rfl, hP⟩

/-- Behind every item there stands a delimiter. -/
theorem delimited_writeRestOnto (e : Expression ι) (k : List Char) :
    Delimited (e.writeRestOnto k) := by
  cases e with
  | emptyList => exact delimited_cons (.inr (.inr rfl)) k
  | _ => exact delimited_cons (.inl rfl) _

/-- The text of a finite number is cut into one token, which denotes the number. -/
theorem scans_number {x : Float} (hx : Double.isFinite x = true) {k : List Char}
    {P : List Token → Prop} (hd : Delimited k) (hk : Scans k P) :
    Scans (Number.chars Number.plain x ++ k) (Derives (.number x) P) := by
  have hb := begins_numeral (Number.numeral_magnitudeChars x) (hd.head_eq_false (by decide))
    (Double.isNegative x)
  rw [Number.ofRun_magnitudeChars hx] at hb
  rw [Number.chars, if_pos hx, Number.signChars]
  exact scans_atom hb (fun p => .number rfl) hk

/-- **The text of a readable expression is cut into the tokens of a derivation that denotes it**;
    what stands behind it, if it is delimited, is cut as it is by itself. The same goes for what is
    written of a list behind its first item. By induction on the expression, both at once. -/
theorem scans_write (e : Expression ι) (he : e.isReadable = true) :
    (∀ k P, Delimited k → Scans k P → Scans (e.writeOnto k) (Derives e.erase P)) ∧
      (e.isProper = true →
        ∀ k P, Scans k P → Scans (e.writeRestOnto k) (Closes (e.restItems.map .erase) P)) := by
  induction e with
  | number x => exact ⟨fun k P hd hk => scans_number he hd hk, nofun⟩
  | string s =>
    refine ⟨fun k P hd hk => ?_, nofun⟩
    obtain ⟨lexeme, hb⟩ := begins_string s k
    exact scans_atom hb (fun p => .string rfl) hk
  | boolean b =>
    refine ⟨fun k P hd hk => ?_, nofun⟩
    cases b with
    | true => exact scans_atom (begins_true k) (fun p => .boolean rfl) hk
    | false => exact scans_atom (begins_false k) (fun p => .boolean rfl) hk
  | symbol name =>
    refine ⟨fun k P hd hk => ?_, nofun⟩
    have hs : ∀ p, Denotes ⟨.symbol, String.ofList name.toList, p⟩ (.symbol name) := by
      intro p
      have h : Denotes ⟨.symbol, String.ofList name.toList, p⟩
        (.symbol (String.ofList name.toList)) := .symbol rfl
      rwa [String.ofList_toList] at h ⊢
    exact scans_atom (begins_symbol he (hd.head_eq_false (by decide))) hs hk
  | emptyList =>
    exact ⟨fun k P _ hk => scans_list (scans_close hk), fun _ k P hk => scans_close hk⟩
  | pair cell first rest ihFirst ihRest =>
    rw [Expression.isReadable, Bool.and_eq_true, Bool.and_eq_true] at he
    obtain ⟨⟨hfirst, hproper⟩, hrest⟩ := he
    have hitems : ∀ k P, Scans k P → Scans (first.writeOnto (rest.writeRestOnto k))
        (Closes (first.erase :: rest.restItems.map .erase) P) := by
      intro k P hk
      have hr := (ihRest hrest).2 hproper k P hk
      exact ((ihFirst hfirst).1 _ _ (delimited_writeRestOnto rest k) hr).mono fun _ h => h.closes
    constructor
    · intro k P hd hk
      rw [Expression.erase, Expression.erase_eq_ofItems hproper, ← Expression.ofItems]
      exact scans_list (hitems k P hk)
    · intro _ k P hk
      exact Scans.blank rfl (hitems k P hk)
  | procedure id => cases he
  | hostFunction id name => cases he
  | unspecified => cases he

/-! ## 8. Programs -/

/-- The text of a program is cut into the tokens of a derivation of it, and an end mark. -/
theorem scans_lines (es : List (Expression ι)) (he : ∀ e ∈ es, e.isReadable = true) :
    Scans (lines es) fun ts => ∃ (F : Forest) (p : Position),
      ts = F.tokens ++ [⟨.finish, "", p⟩] ∧ F.data = es.map .erase := by
  induction es with
  | nil =>
    refine scans_nil.mono ?_
    rintro ts ⟨p, rfl⟩
    exact ⟨.nil, p, rfl, rfl⟩
  | cons e es ih =>
    have hfirst := (scans_write e (he e List.mem_cons_self)).1
    have hrest := ih fun e h => he e (List.mem_cons_of_mem _ h)
    have hk : ∃ k, lines (e :: es) = e.writeOnto k ∧ Delimited k ∧
        Scans k fun ts => ∃ (F : Forest) (p : Position),
          ts = F.tokens ++ [⟨.finish, "", p⟩] ∧ F.data = es.map .erase := by
      cases es with
      | nil => exact ⟨[], rfl, delimited_nil, hrest⟩
      | cons e' es =>
        exact ⟨'\n' :: lines (e' :: es), rfl, delimited_cons (.inr (.inl rfl)) _,
          Scans.blank rfl hrest⟩
    obtain ⟨k, hlines, hd, hk⟩ := hk
    rw [hlines]
    refine (hfirst k _ hd hk).mono ?_
    rintro ts ⟨T, us, rfl, hT, F, p, rfl, hF⟩
    refine ⟨.cons T F, p, ?_, ?_⟩
    · rw [Forest.tokens, List.append_assoc]
    · rw [Forest.data, hT, hF, List.map_cons]

/-- **Reading undoes writing.** A program of readable expressions reads back as itself, without the
    marks of its pairs. Expressions that are equal have the same numbers, bit by bit, the same
    strings, character by character, and the same symbols, which are the same keywords. -/
theorem parse_write (es : List (Expression ι)) (hne : es ≠ [])
    (he : ∀ e ∈ es, e.isReadable = true) : parse (write es) = .ok (es.map .erase) := by
  obtain ⟨ts, hscan, F, p, rfl, hF⟩ := scans_lines es he .start
  have hbody : F.tokens = body (F.tokens ++ [⟨.finish, "", p⟩]) := (F.body_append rfl []).symm
  have hdata : F.data ≠ [] := by
    rw [hF]
    simpa using hne
  have hs : scan (write es) = .ok (F.tokens ++ [⟨.finish, "", p⟩]) := by
    rw [scan, write, String.toList_ofList, hscan]
  rw [parse, hs]
  simp only [ofTokens_of_forest hbody hdata, hF]

/-- A keyword, the negative zero and a string with a line break and quotes, in nested lists, and a
    second expression behind them. -/
theorem parse_write_nested :
    let program : List Datum := [.ofItems [.symbol "quote", .ofItems [.number (-0.0),
      .string "a\n\"b\"", .emptyList]], .symbol "-"]
    parse (write program) = .ok program := by
  intro program
  have h := parse_write program (by simp [program]) (by decide +kernel)
  rwa [List.map_id'' Expression.erase_datum] at h

end Program

end HostedLisp
