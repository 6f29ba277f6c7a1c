import HostedLisp.Proofs.Reading.Seams
import HostedLisp.Text.Blank

/-!
# The margins of a text

White space at the two ends of a text does not matter to the reader. That takes an argument, since
white space is more than the blanks that the scanner skips: a no-break space is an error in most
places, but not inside a comment, and a comment can be the end of a text. Nothing else that ends a
text can end in white space, and what a text begins with is a blank that is skipped or no white
space at all.

* `lexemes` -- the lexemes of pieces, and `Yields` -- what a text holds, be it nothing;
* `Cuts.of_cons_blank`, `Cuts.of_concat_blank` -- white space at the ends can be left out;
* `Cuts.concat_blank` -- a blank can be added at the end of a line;
* `parse_eq_ok_iff` -- reading a text returns what it holds, if that is something;
* `parse_trim` -- **a text without its margins is read as the text**.
-/

namespace HostedLisp

/-! ## 1. White space and lexemes -/

namespace Token

theorem toNat_of_isSymbolChar {c : Char} (h : isSymbolChar c = true) :
    33 ≤ c.toNat ∧ c.toNat ≤ 126 := by
  rw [isSymbolChar, Bool.or_eq_true] at h
  rcases h with h | h
  · simp only [Char.isAlphanum, Char.isAlpha, Char.isUpper, Char.isLower, Char.isDigit,
      Bool.or_eq_true, Bool.and_eq_true, decide_eq_true_eq, ge_iff_le,
      UInt32.le_iff_toNat_le] at h
    change ((65 ≤ c.toNat ∧ c.toNat ≤ 90) ∨ (97 ≤ c.toNat ∧ c.toNat ≤ 122)) ∨
      (48 ≤ c.toNat ∧ c.toNat ≤ 57) at h
    omega
  · have hall := List.all_eq_true.1
      (show List.all _ (fun d : Char => 33 ≤ d.toNat ∧ d.toNat ≤ 126) = true by decide) c
      (List.contains_iff_mem.1 h)
    exact of_decide_eq_true hall

/-- No symbol has white space in it. -/
theorem isBlank_of_isSymbolChar {c : Char} (h : isSymbolChar c = true) :
    Text.isBlank c = false := by
  have hrange := toNat_of_isSymbolChar h
  simp only [Text.isBlank, Text.blankRanges, List.any_cons, List.any_nil, Bool.or_false,
    Bool.or_eq_false_iff, Bool.and_eq_false_iff, decide_eq_false_iff_not]
  omega

theorem isSymbolChar_of_numeral (negative : Bool) {run : List Char} (h : Number.Numeral run) :
    ∀ c ∈ minus negative ++ run, isSymbolChar c = true := by
  intro c hc
  rcases List.mem_append.1 hc with hc | hc
  · cases negative with
    | true =>
      rw [List.mem_singleton.1 hc]
      rfl
    | false => cases hc
  · exact isSymbolChar_of_isNumberChar (h.isNumberChar c hc)

/-- **No lexeme begins or ends with white space.** -/
theorem Lexeme.isBlank_ends {t : List Char} {k : Kind} (h : Lexeme t k) :
    (∀ c ∈ t.head?, Text.isBlank c = false) ∧ ∀ c ∈ t.getLast?, Text.isBlank c = false := by
  have hends : ∀ {t : List Char} {a b : Char}, t.head? = some a → t.getLast? = some b →
      Text.isBlank a = false → Text.isBlank b = false →
      (∀ c ∈ t.head?, Text.isBlank c = false) ∧ ∀ c ∈ t.getLast?, Text.isBlank c = false := by
    intro t a b ha hb hblank hblank'
    rw [ha, hb]
    exact ⟨fun c hc => Option.some.inj hc ▸ hblank, fun c hc => Option.some.inj hc ▸ hblank'⟩
  have hname : (∀ c ∈ t, isSymbolChar c = true) →
      (∀ c ∈ t.head?, Text.isBlank c = false) ∧ ∀ c ∈ t.getLast?, Text.isBlank c = false := by
    intro ht
    exact ⟨fun c hc => isBlank_of_isSymbolChar (ht c (List.mem_of_mem_head? hc)),
      fun c hc => isBlank_of_isSymbolChar (ht c (List.mem_of_getLast? hc))⟩
  cases h with
  | leftBracket | rightBracket | quote | yes | no => exact hends rfl rfl (by decide) (by decide)
  | @string written content hs =>
    have hlast : ('"' :: (written ++ ['"'])).getLast? = some '"' := by
      rw [← List.cons_append, List.getLast?_concat]
    exact hends rfl hlast (by decide) (by decide)
  | number negative hf =>
    exact hname (isSymbolChar_of_numeral negative (numeral_of_fraction hf).1)
  | symbol hn =>
    cases t with
    | nil => cases hn
    | cons c cs =>
      rw [isSymbolName, Bool.and_eq_true, List.all_eq_true] at hn
      exact hname hn.1

/-- The blanks that are skipped are white space. -/
theorem text_isBlank_of_isBlank {c : Char} (h : isBlank c = true) : Text.isBlank c = true := by
  simp only [isBlank, Bool.or_eq_true, beq_iff_eq] at h
  rcases h with ((rfl | rfl) | rfl) | rfl <;> decide

/-- And they are in no symbol. -/
theorem isSymbolChar_of_isBlank {c : Char} (h : isBlank c = true) : isSymbolChar c = false := by
  cases hc : isSymbolChar c with
  | false => rfl
  | true =>
    rw [isBlank_eq_false hc (by decide)] at h
    cases h

/-! ## 2. Pieces at the margins -/

/-- The lexemes among pieces. -/
def lexemes : List Piece → List (Kind × String)
  | [] => []
  | .lexeme kind t :: ps => (kind, String.ofList t) :: lexemes ps
  | .skipped _ :: ps => lexemes ps

theorem unplaced_eq_lexemes (before : List Char) (ps : List Piece) :
    (tokensOf before ps).map unplaced = lexemes ps := by
  induction ps generalizing before with
  | nil => rfl
  | cons p ps ih =>
    cases p with
    | lexeme kind t => exact congrArg ((kind, String.ofList t) :: ·) (ih (before ++ t))
    | skipped t => exact ih (before ++ t)

theorem lexemes_append (ps qs : List Piece) : lexemes (ps ++ qs) = lexemes ps ++ lexemes qs := by
  induction ps with
  | nil => rfl
  | cons p ps ih =>
    cases p with
    | lexeme kind t => exact congrArg ((kind, String.ofList t) :: ·) ih
    | skipped t => exact ih

theorem lexemes_cons_congr (p : Piece) {ps qs : List Piece} (h : lexemes qs = lexemes ps) :
    lexemes (p :: qs) = lexemes (p :: ps) := by
  cases p with
  | lexeme kind t => exact congrArg ((kind, String.ofList t) :: ·) h
  | skipped t => exact h

theorem Cuts.eq_nil {ps : List Piece} (h : Cuts [] ps) : ps = [] := h.unique .nil

/-- White space at the beginning of a text is a blank, which is skipped. -/
theorem Cuts.of_cons_blank {c : Char} {text : List Char} {ps : List Piece}
    (h : Cuts (c :: text) ps) (hc : Text.isBlank c = true) :
    ∃ qs, Cuts text qs ∧ lexemes qs = lexemes ps := by
  generalize htext : c :: text = whole at h
  cases h with
  | nil => cases htext
  | @cons p rest ps hp hl h =>
    cases p with
    | lexeme kind t =>
      have hlex : Lexeme t kind := hp
      obtain ⟨b, bs, rfl⟩ := List.exists_cons_of_ne_nil (Shape.lexeme hlex).ne_nil
      obtain ⟨rfl, -⟩ := List.cons.inj htext
      have hb := hlex.isBlank_ends.1 c rfl
      rw [hc] at hb
      cases hb
    | skipped t =>
      cases hp with
      | blank _ =>
        cases htext
        exact ⟨ps, h, rfl⟩
      | comment _ =>
        cases htext
        cases hc

/-- A piece that is the longest beginning stays so if the text is cut off behind it. -/
theorem Piece.Valid.longest_of_append {p : Piece} (hp : p.Valid) {rest behind : List Char}
    (h : Longest (p.text ++ (rest ++ behind)) p.text) : Longest (p.text ++ rest) p.text := by
  rw [longest_iff hp.shape] at h ⊢
  intro d hd
  obtain ⟨ds, rfl⟩ := List.head?_eq_some_iff.1 hd
  exact h d rfl

/-- White space at the end of the last piece: it is a blank, or the end of a comment. -/
theorem Skipped.of_concat_blank {c : Char} {text : List Char} (h : Skipped (text ++ [c]))
    (hc : Text.isBlank c = true) : text = [] ∨ Skipped text := by
  generalize ht : text ++ [c] = t at h
  cases h with
  | blank _ =>
    obtain ⟨rfl, -⟩ := List.append_eq_singleton_iff.1 ht |>.resolve_right (by simp)
    exact .inl rfl
  | @comment cs hlf =>
    cases text with
    | nil =>
      obtain ⟨rfl, -⟩ := List.cons.inj ht
      cases hc
    | cons b bs =>
      obtain ⟨rfl, rfl⟩ := List.cons.inj ht
      exact .inr (.comment fun hm => hlf (List.mem_append_left _ hm))

/-- White space at the end of a text is a blank, which is skipped, or the end of a comment, which is
    a comment without it. -/
theorem Cuts.of_concat_blank {c : Char} {text : List Char} {ps : List Piece}
    (h : Cuts (text ++ [c]) ps) (hc : Text.isBlank c = true) :
    ∃ qs, Cuts text qs ∧ lexemes qs = lexemes ps := by
  generalize htext : text ++ [c] = whole at h
  induction h generalizing text with
  | nil => simp at htext
  | @cons p rest ps hp hl h ih =>
    rcases List.eq_nil_or_concat' rest with rfl | ⟨rest', d, rfl⟩
    · -- the last piece
      have hlast : text ++ [c] = p.text := by rw [htext, List.append_nil]
      rw [h.eq_nil]
      cases p with
      | lexeme kind t =>
        obtain rfl : text ++ [c] = t := hlast
        have hlex : Lexeme (text ++ [c]) kind := hp
        have hend := hlex.isBlank_ends.2 c List.getLast?_concat
        rw [hc] at hend
        cases hend
      | skipped t =>
        obtain rfl : text ++ [c] = t := hlast
        have hskipped : Skipped (text ++ [c]) := hp
        rcases hskipped.of_concat_blank hc with rfl | hs
        · exact ⟨[], .nil, rfl⟩
        · have hvalid : (Piece.skipped text).Valid := hs
          have hlongest : Longest (text ++ []) text := by
            rw [longest_iff (.skipped hs)]
            intro d hd
            cases hd
          have hcut : Cuts (text ++ []) [.skipped text] := .cons hvalid hlongest .nil
          rw [List.append_nil] at hcut
          exact ⟨_, hcut, rfl⟩
    · rw [← List.append_assoc] at htext
      obtain ⟨rfl, hd⟩ := List.append_inj' htext rfl
      obtain rfl : c = d := List.singleton_injective hd
      obtain ⟨qs, hqs, hsame⟩ := ih rfl
      exact ⟨p :: qs, .cons hp (hp.longest_of_append hl) hqs, lexemes_cons_congr p hsame⟩

/-- **A blank can be added at the end of a line.** It is skipped, or becomes the end of a
    comment. -/
theorem Cuts.concat_blank {c : Char} {text : List Char} {ps : List Piece} (h : Cuts text ps)
    (hc : isBlank c = true) (hline : c ≠ '\n') :
    ∃ qs, Cuts (text ++ [c]) qs ∧ lexemes qs = lexemes ps := by
  have hblank : Cuts [c] [.skipped [c]] := Cuts.nil.blank hc
  induction h with
  | nil => exact ⟨_, hblank, rfl⟩
  | @cons p rest ps hp hl h ih =>
    cases rest with
    | cons d rest =>
      obtain ⟨qs, hqs, hsame⟩ := ih
      have hlonger : Longest (p.text ++ (d :: rest ++ [c])) p.text := by
        rw [longest_iff hp.shape] at hl ⊢
        exact hl
      rw [List.append_assoc]
      exact ⟨p :: qs, .cons hp hlonger hqs, lexemes_cons_congr p hsame⟩
    | nil =>
      -- the last piece: a comment grows, all others end
      rw [h.eq_nil, List.append_nil]
      have hends : (∀ d, d = c → ¬Shape (p.text ++ [d])) →
          ∃ qs, Cuts (p.text ++ [c]) qs ∧ lexemes qs = lexemes [p] := by
        intro hgrow
        have hlast : Longest (p.text ++ [c]) p.text := by
          rw [longest_iff hp.shape]
          intro d hd
          exact hgrow d (Option.some.inj hd).symm
        exact ⟨[p, .skipped [c]], .cons hp hlast hblank, lexemes_cons_congr p rfl⟩
      cases p with
      | lexeme kind t =>
        have hlex : Lexeme t kind := hp
        exact hends fun d hd => hlex.not_snoc (hd ▸ isSymbolChar_of_isBlank hc)
      | skipped t =>
        cases hp with
        | blank hb => exact hends fun d _ => not_shape_single (.inl hb) d
        | @comment cs hlf =>
          have hlf' : '\n' ∉ cs ++ [c] := by
            intro hm
            rcases List.mem_append.1 hm with hm | hm
            · exact hlf hm
            · exact hline (List.mem_singleton.1 hm).symm
          have hcut : Cuts (';' :: (cs ++ [c] ++ [])) [.skipped (';' :: (cs ++ [c]))] :=
            Cuts.comment hlf' nofun .nil
          rw [List.append_nil] at hcut
          exact ⟨_, hcut, rfl⟩

end Token

namespace Program

open Token

/-! ## 3. What a text holds -/

/-- One derivation after another. -/
def Forest.append : Forest → Forest → Forest
  | .nil, G => G
  | .cons T F, G => .cons T (F.append G)

theorem Forest.tokens_append : ∀ F G : Forest, (F.append G).tokens = F.tokens ++ G.tokens
  | .nil, _ => rfl
  | .cons T F, G => by
    rw [Forest.append, Forest.tokens, Forest.tokens_append F G, Forest.tokens, List.append_assoc]

theorem Forest.data_append : ∀ F G : Forest, (F.append G).data = F.data ++ G.data
  | .nil, _ => rfl
  | .cons T F, G => by
    rw [Forest.append, Forest.data, Forest.data_append F G, Forest.data, List.cons_append]

/-- The text can be cut, and its lexemes derive the expressions, of which there may be none. -/
def Yields (text : List Char) (es : List Datum) : Prop :=
  ∃ (ps : List Piece) (F : Forest), Cuts text ps ∧ F.tokens.map unplaced = lexemes ps ∧ F.data = es

/-- **Reading a text returns what it holds**, if that is something. -/
theorem parse_eq_ok_iff {source : String} {es : List Datum} :
    parse source = .ok es ↔ es ≠ [] ∧ Yields source.toList es := by
  constructor
  · intro h
    obtain ⟨hne, ps, F, hps, hF, hdata⟩ := exists_forest_of_parse h
    have hsame : F.tokens.map unplaced = lexemes ps := by
      rw [hF]
      exact unplaced_eq_lexemes [] ps
    exact ⟨hne, ps, F, hps, hsame, hdata⟩
  · rintro ⟨hne, ps, F, hps, hF, rfl⟩
    have hsame : F.tokens.map unplaced = (tokensOf [] ps).map unplaced := by
      rw [hF]
      exact (unplaced_eq_lexemes [] ps).symm
    have hempty : (tokensOf [] ps).isEmpty = false := by
      have hlength := congrArg List.length hsame
      rw [List.length_map, List.length_map] at hlength
      have hpos := List.length_pos_iff.2 (Forest.tokens_ne_nil hne)
      cases htokens : tokensOf [] ps with
      | nil =>
        rw [htokens, List.length_nil] at hlength
        omega
      | cons => rfl
    have hread := read_forest_append (F := .nil) hsame
      (finishPosition (tokensOf [] ps ++ [endOf source.toList]))
    rw [parse, scan_eq_ok_iff.2 ⟨ps, hps, rfl⟩]
    show ofTokens _ = _
    rw [ofTokens, hps.body_tokensOf, hempty, if_neg (by decide)]
    exact hread

/-! ## 4. Lines -/

/-- Texts joined by a line break hold what both hold. -/
theorem Yields.append_newline {a b : List Char} {as bs : List Datum} (ha : Yields a as)
    (hb : Yields b bs) : Yields (a ++ '\n' :: b) (as ++ bs) := by
  obtain ⟨ps, F, hps, hF, rfl⟩ := ha
  obtain ⟨qs, G, hqs, hG, rfl⟩ := hb
  refine ⟨_, F.append G, hps.append_newline hqs, ?_, F.data_append G⟩
  rw [Forest.tokens_append, List.map_append, hF, hG, lexemes_append]
  rfl

/-- A text of blanks holds nothing. -/
theorem yields_blank {text : List Char} (h : ∀ c ∈ text, isBlank c = true) : Yields text [] := by
  have hcuts : ∃ ps, Cuts text ps ∧ lexemes ps = [] := by
    induction text with
    | nil => exact ⟨[], .nil, rfl⟩
    | cons c text ih =>
      obtain ⟨hc, htext⟩ := List.forall_mem_cons.1 h
      obtain ⟨ps, hps, hnone⟩ := ih htext
      exact ⟨_, hps.blank hc, hnone⟩
  obtain ⟨ps, hps, hnone⟩ := hcuts
  exact ⟨ps, .nil, hps, hnone.symm, rfl⟩

theorem Yields.concat_blank {text : List Char} {es : List Datum} (h : Yields text es) {c : Char}
    (hc : isBlank c = true) (hline : c ≠ '\n') : Yields (text ++ [c]) es := by
  obtain ⟨ps, F, hps, hF, hdata⟩ := h
  obtain ⟨qs, hqs, hsame⟩ := hps.concat_blank hc hline
  exact ⟨qs, F, hqs, hF.trans hsame.symm, hdata⟩

/-! ## 5. Margins -/

theorem Yields.dropWhile_isBlank {text : List Char} {es : List Datum} (h : Yields text es) :
    Yields (text.dropWhile Text.isBlank) es := by
  induction text with
  | nil => exact h
  | cons c text ih =>
    rw [List.dropWhile_cons]
    split
    · rename_i hc
      obtain ⟨ps, F, hps, hF, hdata⟩ := h
      obtain ⟨qs, hqs, hsame⟩ := hps.of_cons_blank hc
      exact ih ⟨qs, F, hqs, hF.trans hsame.symm, hdata⟩
    · exact h

/-- The same from the other end. -/
theorem Yields.dropWhile_reverse {text : List Char} {es : List Datum} (h : Yields text.reverse es) :
    Yields (text.dropWhile Text.isBlank).reverse es := by
  induction text with
  | nil => exact h
  | cons c text ih =>
    rw [List.dropWhile_cons]
    split
    · rename_i hc
      obtain ⟨ps, F, hps, hF, hdata⟩ := h
      rw [List.reverse_cons] at hps
      obtain ⟨qs, hqs, hsame⟩ := hps.of_concat_blank hc
      exact ih ⟨qs, F, hqs, hF.trans hsame.symm, hdata⟩
    · exact h

/-- **A text without its margins is read as the text.** -/
theorem parse_trim {source : String} {es : List Datum} (h : parse source = .ok es) :
    parse (Text.trim source) = .ok es := by
  rw [parse_eq_ok_iff] at h ⊢
  obtain ⟨hne, hyields⟩ := h
  have hfront := hyields.dropWhile_isBlank
  rw [← List.reverse_reverse (source.toList.dropWhile Text.isBlank)] at hfront
  refine ⟨hne, ?_⟩
  rw [Text.trim, String.toList_ofList]
  exact hfront.dropWhile_reverse

end Program

end HostedLisp
