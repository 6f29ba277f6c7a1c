import HostedLisp.Proofs.Reading.Seams

/-!
# What reading returns

Reading returns nothing that a text could not hold: numbers, strings, booleans, symbols with
readable names, and proper lists of these. All of it is readable but the numbers that are too large
for a double, so a program without such numbers can be written and read again.

* `Expression.Textual` -- what a text can hold, given which numbers it can hold;
* `Double.isNaN_ofFraction` -- no numeral is read as not-a-number;
* `Token.Suits`, `Program.Forest.textual` -- the data of a derivation are what its tokens allow;
* `unreadable_of_parse` -- a text that is no program is refused at a position and for a reason, and
  in no other way;
* `parse_write_of_parse` -- **what was read is textual, and reading it again after it was written
  gives it back**.
-/

namespace HostedLisp

/-! ## 1. What a text can hold -/

namespace Expression

/-- What a text can hold: numbers of which `P` holds, strings, booleans, symbols with a name that
    is read as one, the empty list, and the proper lists of these. -/
def Textual (P : Float → Prop) : Datum → Prop
  | number x => P x
  | string _ | boolean _ | emptyList => True
  | symbol name => Token.isSymbolName name.toList = true
  | pair _ first rest => first.Textual P ∧ rest.isProper = true ∧ rest.Textual P
  | procedure _ | hostFunction .. | unspecified => False

/-- A textual expression whose numbers are finite is readable. -/
theorem Textual.isReadable {e : Datum} (h : e.Textual fun x => Double.isFinite x = true) :
    e.isReadable = true := by
  induction e with
  | number x => exact h
  | symbol name => exact h
  | pair cell first rest ihFirst ihRest =>
    obtain ⟨hfirst, hproper, hrest⟩ := h
    rw [Expression.isReadable, ihFirst hfirst, hproper, ihRest hrest]
    rfl
  | string | boolean | emptyList => rfl
  | procedure | hostFunction | unspecified => exact h.elim

/-- The list of textual expressions is textual. -/
theorem textual_ofItems {P : Float → Prop} {es : List Datum} (h : ∀ e ∈ es, e.Textual P) :
    (ofItems es).Textual P := by
  induction es with
  | nil => exact True.intro
  | cons e es ih =>
    have hrest : (ofItems es).Textual P := ih fun e he => h e (List.mem_cons_of_mem _ he)
    exact ⟨h e List.mem_cons_self, isProper_ofItems es, hrest⟩

end Expression

/-! ## 2. The numbers of numerals -/

namespace Double

theorem nearestCode_le (n d : Nat) : nearestCode n d ≤ infinityCode := Nat.min_le_right _ _

/-- **No numeral is read as not-a-number**: the codes of fractions end with that of infinity. -/
theorem isNaN_ofFraction (negative : Bool) (n d : Nat) :
    (ofFraction negative n d).isNaN = false := by
  have hcode : codeOf (ofFraction negative n d) = nearestCode n d :=
    codeOf_ofCode negative (nearestCode_le n d)
  have hle := nearestCode_le n d
  rw [isNaN_eq, hcode]
  exact decide_eq_false (by omega)

end Double

/-! ## 3. Tokens -/

namespace Token

/-- What a token says by itself is textual. -/
structure Suits (P : Float → Prop) (t : Token) : Prop where
  number : ∀ x, t.kind = .number x → P x
  symbol : t.kind = .symbol → isSymbolName t.lexeme.toList = true

/-- The tokens of pieces have the kinds of their lexemes. -/
theorem Cuts.lexeme_of_mem {text : List Char} {ps : List Piece} (h : Cuts text ps)
    {before : List Char} {t : Token} (ht : t ∈ tokensOf before ps) :
    Lexeme t.lexeme.toList t.kind := by
  induction h generalizing before with
  | nil => cases ht
  | @cons p rest ps hp _ _ ih =>
    cases p with
    | skipped u => exact ih ht
    | lexeme kind u =>
      rcases List.mem_cons.1 ht with rfl | ht
      · have hu : (String.ofList u).toList = u := String.toList_ofList
        show Lexeme (String.ofList u).toList kind
        rw [hu]
        exact hp
      · exact ih ht

/-- No lexeme stands for not-a-number, and the lexeme of a symbol is a readable name. -/
theorem suits_of_lexeme {t : Token} (h : Lexeme t.lexeme.toList t.kind) :
    t.Suits fun x => x.isNaN = false := by
  obtain ⟨kind, lexeme, position⟩ := t
  refine ⟨fun x hx => ?_, fun hs => ?_⟩
  · cases (show kind = .number x from hx)
    generalize lexeme.toList = text at h
    cases h with
    | number negative _ => exact Double.isNaN_ofFraction negative _ _
  · cases (show kind = .symbol from hs)
    generalize htext : lexeme.toList = text at h
    cases h with
    | symbol hname => exact htext ▸ hname

/-- A number that is neither not-a-number nor infinite is finite. -/
theorem Suits.isFinite {t : Token} (h : t.Suits fun x => x.isNaN = false)
    (hinf : ∀ x, t.kind = .number x → x.isInf = false) :
    t.Suits fun x => Double.isFinite x = true := by
  refine ⟨fun x hx => ?_, h.symbol⟩
  rw [Double.isFinite_eq, h.number x hx, hinf x hx]
  rfl

/-- Scanning fails where a lexeme is wrong, and in no other way. -/
theorem unreadable_of_scanFrom {position : Position} {text : List Char} {err : Error}
    (h : scanFrom position text = .error err) : ∃ p fault, err = .unreadable p fault := by
  fun_induction scanFrom position text with
  | case1 => cases h
  | case2 _ _ _ _ ih => exact ih h
  | case3 _ _ _ ih => exact ih h
  | case4 =>
    cases h
    exact ⟨_, _, rfl⟩
  | case5 _ _ _ _ _ _ _ _ hrest ih =>
    cases h
    exact ih hrest
  | case6 => cases h

end Token

/-! ## 4. Derivations -/

namespace Program

open Token

theorem Denotes.textual {P : Float → Prop} {t : Token} {e : Datum} (h : Denotes t e)
    (ht : t.Suits P) : e.Textual P := by
  cases h with
  | number hx => exact ht.number _ hx
  | symbol hs => exact ht.symbol hs
  | boolean | string => exact True.intro

mutual

/-- The expression of a tree is what its tokens allow. A quote mark adds a keyword, brackets add a
    proper list. -/
theorem Tree.textual {P : Float → Prop} : ∀ T : Tree, (∀ t ∈ T.tokens, t.Suits P) →
    T.datum.Textual P
  | .atom t e hd, h => hd.textual (h t List.mem_cons_self)
  | .quote t hq inner, h => by
    have hinner : inner.datum.Textual P :=
      Tree.textual inner fun u hu => h u (List.mem_cons_of_mem t hu)
    refine Expression.textual_ofItems ?_
    intro e he
    rcases List.mem_cons.1 he with rfl | he
    · show isSymbolName Keyword.quote.name.toList = true
      decide
    · rw [List.mem_singleton.1 he]
      exact hinner
  | .list opening ho items closing hc, h => by
    refine Expression.textual_ofItems (Forest.textual items fun u hu => h u ?_)
    exact List.mem_cons_of_mem opening (List.mem_append_left _ hu)

/-- **The data of a derivation are what its tokens allow.** -/
theorem Forest.textual {P : Float → Prop} : ∀ F : Forest, (∀ t ∈ F.tokens, t.Suits P) →
    ∀ e ∈ F.data, e.Textual P
  | .nil, _, _, he => by cases he
  | .cons T F, h, e, he => by
    rcases List.mem_cons.1 he with rfl | he
    · exact Tree.textual T fun u hu => h u (List.mem_append_left _ hu)
    · exact Forest.textual F (fun u hu => h u (List.mem_append_right _ hu)) e he

end

/-- **A text that is no program is unreadable**, at a position and for a reason. -/
theorem unreadable_of_parse {source : String} {err : Error} (h : parse source = .error err) :
    ∃ p fault, err = .unreadable p fault := by
  unfold parse at h
  split at h
  · rename_i hscan
    cases h
    exact unreadable_of_scanFrom hscan
  · rename_i tokens _
    rcases Descent.parse_cases tokens (Nat.le_refl _) with ⟨F, -, -, -, hr⟩ | ⟨p, fault, -, hr⟩
    · cases hr.symm.trans h
    · cases hr.symm.trans h
      exact ⟨p, fault, rfl⟩

/-! ## 5. Reading again -/

/-- A text that is scanned into the tokens of a derivation is read as its data. -/
theorem parse_of_scan {source : String} {F : Forest} {p : Position}
    (hscan : scan source = .ok (F.tokens ++ [⟨.finish, "", p⟩])) (hne : F.data ≠ []) :
    parse source = .ok F.data := by
  have hbody : F.tokens = body (F.tokens ++ [⟨.finish, "", p⟩]) := (F.body_append rfl []).symm
  rw [parse, hscan]
  exact ofTokens_of_forest hbody hne

/-- Readable data are read as themselves where they are written. -/
theorem parse_write_data {program : List Datum} (hne : program ≠ [])
    (h : ∀ e ∈ program, e.isReadable = true) : parse (write program) = .ok program := by
  obtain ⟨ts, hscan, F, p, rfl, hdata⟩ := scans_lines program h .start
  have hF : F.data = program := by
    rw [hdata]
    exact List.map_id'' Expression.erase_datum program
  have hs : scan (write program) = .ok (F.tokens ++ [⟨.finish, "", p⟩]) := by
    rw [scan, write, String.toList_ofList, hscan]
  rw [parse_of_scan hs (hF ▸ hne), hF]

/-- **What was read is textual, and reading it again after it was written gives it back.** For every
    source text that is read as a program, with quote marks, comments and lexemes side by side
    wherever they may stand:

    * no number of the program is not-a-number, its symbols have names that are read as symbols, and
      its pairs are proper lists; there is nothing else in it but strings, booleans and empty lists;
    * if no numeral of the text overflows, the written program is read as the same program. -/
theorem parse_write_of_parse {source : String} {program : List Datum}
    (h : parse source = .ok program) :
    (∀ e ∈ program, e.Textual fun x => x.isNaN = false) ∧
    ((∀ tokens, scan source = .ok tokens → ∀ t ∈ tokens, ∀ x, t.kind = .number x →
        x.isInf = false) →
      parse (write program) = .ok program) := by
  obtain ⟨hne, ps, F, hps, htokens, rfl⟩ := exists_forest_of_parse h
  have hsuits : ∀ t ∈ F.tokens, t.Suits fun x => x.isNaN = false := by
    intro t ht
    rw [htokens] at ht
    exact suits_of_lexeme (hps.lexeme_of_mem ht)
  refine ⟨F.textual hsuits, fun hinf => ?_⟩
  have hscan : scan source = .ok (F.tokens ++ [endOf source.toList]) := by
    rw [htokens]
    exact scan_eq_ok_iff.2 ⟨ps, hps, rfl⟩
  have hfinite : ∀ t ∈ F.tokens, t.Suits fun x => Double.isFinite x = true := by
    intro t ht
    exact (hsuits t ht).isFinite (hinf _ hscan t (List.mem_append_left _ ht))
  exact parse_write_data hne fun e he => (F.textual hfinite e he).isReadable

/-- Quote marks, a comment, lexemes without a blank between them, a name that begins like a number,
    a string with an escape and a numeral that is written differently. -/
theorem parse_write_of_parse_adjacent :
    let source := "'(1e5 #true -.5 -2.50;a (\n\"\\t\")'()"
    let program : List Datum :=
      [.ofItems [.symbol "quote", .ofItems [.number 1, .symbol "e5", .boolean true, .symbol "rue",
          .symbol "-.5", .number (-2.5), .string "\t"]],
        .ofItems [.symbol "quote", .emptyList]]
    parse source = .ok program ∧ parse (write program) = .ok program := by
  intro source program
  have hone : Number.ofRun false ['1'] = 1 := by decide +kernel
  have hhalf : Number.ofRun true ['2', '.', '5', '0'] = -2.5 := by decide +kernel
  have hscan : scan source = .ok
      [⟨.quote, "'", ⟨0, 0⟩⟩, ⟨.leftBracket, "(", ⟨0, 1⟩⟩, ⟨.number 1, "1", ⟨0, 2⟩⟩,
        ⟨.symbol, "e5", ⟨0, 3⟩⟩, ⟨.boolean true, "#t", ⟨0, 6⟩⟩, ⟨.symbol, "rue", ⟨0, 8⟩⟩,
        ⟨.symbol, "-.5", ⟨0, 12⟩⟩, ⟨.number (-2.5), "-2.50", ⟨0, 16⟩⟩,
        ⟨.string "\t", "\"\\t\"", ⟨1, 0⟩⟩, ⟨.rightBracket, ")", ⟨1, 4⟩⟩, ⟨.quote, "'", ⟨1, 5⟩⟩,
        ⟨.leftBracket, "(", ⟨1, 6⟩⟩, ⟨.rightBracket, ")", ⟨1, 7⟩⟩, ⟨.finish, "", ⟨1, 8⟩⟩] := by
    simp [source, scan, scanFrom, isBlank, cut, startsNumber, cutNumber, isNumberChar,
      isSymbolChar, stringBody, Text.literalUnescape?, Position.start, Position.after, hone, hhalf]
  have hread : parse source = .ok program := by
    rw [parse, hscan]
    rfl
  refine ⟨hread, (parse_write_of_parse hread).2 ?_⟩
  intro tokens htokens
  cases hscan.symm.trans htokens
  have hfinite : (1 : Float).isInf = false ∧ (-2.5 : Float).isInf = false := by decide +kernel
  simp [hfinite]

end Program

end HostedLisp
