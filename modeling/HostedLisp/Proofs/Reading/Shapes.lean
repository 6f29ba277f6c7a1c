import HostedLisp.Proofs.Reading.RoundTrip

/-!
# The lexical grammar

A text is made of lexemes and of what is skipped between them. This module says which texts these
are, without saying how they are found.

* `Lexeme` -- the texts of lexemes, each with the kind of its token and its decoded value;
* `Skipped` -- a blank character, or a comment;
* `Shape` -- the texts among which a longest match is sought: the ones above, and all runs of digits
  and points, of which those with several points are no lexemes;
* `Longest` -- the longest beginning of a text that has a shape;
* `longest_iff` -- **one character decides**: a shape is the longest one exactly if it is no shape
  together with the character behind it;
* `begins_of_longest` -- the scanner cuts off the longest beginning, if that is a lexeme;
* `Begins.complete` -- and it cuts off nothing else.
-/

namespace HostedLisp

/-- The numeral `run` stands for the fraction `n / d`. -/
inductive Number.Fraction : (run : List Char) → (n d : Nat) → Prop where
  | whole {ds : List Char} (hne : ds ≠ []) (h : ∀ c ∈ ds, c.isDigit = true) :
      Fraction ds (Nat.ofDigitChars 10 ds 0) 1
  | point {ds fs : List Char} (hne : ds ≠ []) (h : ∀ c ∈ ds, c.isDigit = true)
      (hf : ∀ c ∈ fs, c.isDigit = true) :
      Fraction (ds ++ '.' :: fs) (Nat.ofDigitChars 10 (ds ++ fs) 0) (10 ^ fs.length)

namespace Token

/-! ## 1. The grammar -/

/-- The escapes of string literals: the character behind the backslash, and what it stands for. -/
def escapes : List (Char × Char) :=
  [('n', '\n'), ('t', '\t'), ('r', '\r'), ('\\', '\\'), ('"', '"')]

/-- The text between the quotes of a string literal, and the characters that it stands for. -/
inductive Spells : (written content : List Char) → Prop where
  | nil : Spells [] []
  | plain {c : Char} {written content : List Char} (hq : c ≠ '"') (hb : c ≠ '\\')
      (h : Spells written content) : Spells (c :: written) (c :: content)
  | escape {d c : Char} {written content : List Char} (hd : (d, c) ∈ escapes)
      (h : Spells written content) : Spells ('\\' :: d :: written) (c :: content)

/-- The lexemes, with their kinds. -/
inductive Lexeme : List Char → Kind → Prop where
  | leftBracket : Lexeme ['('] .leftBracket
  | rightBracket : Lexeme [')'] .rightBracket
  | quote : Lexeme ['\x27'] .quote
  | yes : Lexeme ['#', 't'] (.boolean true)
  | no : Lexeme ['#', 'f'] (.boolean false)
  | string {written content : List Char} (h : Spells written content) :
      Lexeme ('"' :: (written ++ ['"'])) (.string (String.ofList content))
  | number (negative : Bool) {run : List Char} {n d : Nat} (h : Number.Fraction run n d) :
      Lexeme (minus negative ++ run) (.number (Double.ofFraction negative n d))
  | symbol {name : List Char} (h : isSymbolName name = true) : Lexeme name .symbol

/-- What stands between lexemes. -/
inductive Skipped : List Char → Prop where
  | blank {c : Char} (h : isBlank c = true) : Skipped [c]
  | comment {cs : List Char} (h : '\n' ∉ cs) : Skipped (';' :: cs)

/-- The runs of digits and points that begin as a number does: with a digit, or with a minus sign
    before a digit. -/
def isRun : List Char → Bool
  | [] => false
  | c :: cs => startsNumber c cs && cs.all isNumberChar

/-- The texts among which a longest match is sought. -/
inductive Shape : List Char → Prop where
  | skipped {t : List Char} (h : Skipped t) : Shape t
  | lexeme {t : List Char} {k : Kind} (h : Lexeme t k) : Shape t
  | run {t : List Char} (h : isRun t = true) : Shape t

/-- `t` is the longest beginning of the text that has a shape. -/
structure Longest (text t : List Char) : Prop where
  shape : Shape t
  starts : t <+: text
  longest : ∀ longer, longer <+: text → Shape longer → longer.length ≤ t.length

/-! ## 2. Numerals -/

theorem numeral_of_fraction {run : List Char} {n d : Nat} (h : Number.Fraction run n d) :
    Number.Numeral run ∧
      ∀ negative, Double.ofFraction negative n d = Number.ofRun negative run := by
  have hpoint : ∀ ds : List Char, (∀ c ∈ ds, c.isDigit = true) → ∀ c ∈ ds, c ≠ '.' := by
    rintro ds h c hc rfl
    exact absurd (h _ hc) (by decide)
  cases h with
  | whole hne h =>
    exact ⟨.whole hne h, fun negative => (Number.ofRun_of_forall_ne negative (hpoint _ h)).symm⟩
  | point hne h hf =>
    exact ⟨.point hne h hf, fun negative => (Number.ofRun_append negative _ _ (hpoint _ h)).symm⟩

theorem exists_fraction {run : List Char} (h : Number.Numeral run) :
    ∃ n d, Number.Fraction run n d := by
  cases h with
  | whole hne h => exact ⟨_, _, .whole hne h⟩
  | point hne h hf => exact ⟨_, _, .point hne h hf⟩

/-- A numeral behind a sign is a number lexeme, with the value of its run. -/
theorem lexeme_numeral (negative : Bool) {run : List Char} (h : Number.Numeral run) :
    Lexeme (minus negative ++ run) (.number (Number.ofRun negative run)) := by
  obtain ⟨n, d, hf⟩ := exists_fraction h
  rw [← (numeral_of_fraction hf).2 negative]
  exact .number negative hf

/-- A numeral behind a sign is a run of digits and points. -/
theorem isRun_numeral (negative : Bool) {run : List Char} (h : Number.Numeral run) :
    isRun (minus negative ++ run) = true := by
  have hall := h.isNumberChar
  obtain ⟨d, ds, rfl, hd⟩ := h.head
  have hds : ds.all isNumberChar = true :=
    List.all_eq_true.2 fun c hc => hall c (List.mem_cons_of_mem d hc)
  cases negative with
  | true => simp [minus, isRun, startsNumber, hd, hds, Number.isNumberChar_of_isDigit hd]
  | false => simp [minus, isRun, startsNumber, hd, hds]

/-- A run of digits and points that begins with a digit is a numeral, if it has one point or none. -/
theorem numeral_of_count_le {d : Char} {ds : List Char} (hd : d.isDigit = true)
    (h : ∀ c ∈ ds, isNumberChar c = true) (hc : (d :: ds).count '.' ≤ 1) :
    Number.Numeral (d :: ds) := by
  have hdigit : ∀ c ∈ ds, c ≠ '.' → c.isDigit = true := by
    intro c hc hne
    have hn := h c hc
    simpa [isNumberChar, hne] using hn
  have hne : d ≠ '.' := by
    rintro rfl
    cases hd
  by_cases hp : '.' ∈ ds
  · obtain ⟨before, behind, rfl⟩ := List.append_of_mem hp
    rw [List.count_cons_of_ne hne, List.count_append, List.count_cons_self] at hc
    -- the one point is taken, so there is none before it and none behind it
    have hbefore : '.' ∉ before := List.count_eq_zero.1 (by omega)
    have hbehind : '.' ∉ behind := List.count_eq_zero.1 (by omega)
    have hp : Number.Numeral ((d :: before) ++ '.' :: behind) := by
      refine .point (by simp) (fun c hc => ?_) fun c hc => ?_
      · rcases List.mem_cons.1 hc with rfl | hc
        · exact hd
        · exact hdigit c (List.mem_append_left _ hc) (by rintro rfl; exact hbefore hc)
      · exact hdigit c (by simp [hc]) (by rintro rfl; exact hbehind hc)
    exact hp
  · refine .whole (by simp) fun c hc => ?_
    rcases List.mem_cons.1 hc with rfl | hc
    · exact hd
    · exact hdigit c hc (by rintro rfl; exact hp hc)

/-! ## 3. Shapes by their first character -/

/-- **The first character fixes what a shape can be**; for a minus sign, the one behind it. -/
theorem shape_cons_iff {c : Char} {cs : List Char} :
    Shape (c :: cs) ↔
      (cs = [] ∧ (isBlank c = true ∨ c = '(' ∨ c = ')' ∨ c = '\x27')) ∨
      (c = ';' ∧ '\n' ∉ cs) ∨
      (c = '#' ∧ (cs = ['t'] ∨ cs = ['f'])) ∨
      (c = '"' ∧ ∃ written content, Spells written content ∧ cs = written ++ ['"']) ∨
      isRun (c :: cs) = true ∨ isSymbolName (c :: cs) = true := by
  constructor
  · intro h
    generalize ht : c :: cs = t at h
    cases h with
    | skipped h =>
      cases h with
      | blank h => cases ht; exact .inl ⟨rfl, .inl h⟩
      | comment h => cases ht; exact .inr (.inl ⟨rfl, h⟩)
    | lexeme h =>
      cases h with
      | leftBracket => cases ht; simp
      | rightBracket => cases ht; simp
      | quote => cases ht; simp
      | yes => cases ht; simp
      | no => cases ht; simp
      | string h => cases ht; exact .inr (.inr (.inr (.inl ⟨rfl, _, _, h, rfl⟩)))
      | number negative h =>
        have hr := isRun_numeral negative (numeral_of_fraction h).1
        exact .inr (.inr (.inr (.inr (.inl hr))))
      | symbol h => exact .inr (.inr (.inr (.inr (.inr h))))
    | run h => exact .inr (.inr (.inr (.inr (.inl h))))
  · rintro (⟨rfl, h | rfl | rfl | rfl⟩ | ⟨rfl, h⟩ | ⟨rfl, rfl | rfl⟩
      | ⟨rfl, written, content, h, rfl⟩ | h | h)
    · exact .skipped (.blank h)
    · exact .lexeme .leftBracket
    · exact .lexeme .rightBracket
    · exact .lexeme .quote
    · exact .skipped (.comment h)
    · exact .lexeme .yes
    · exact .lexeme .no
    · exact .lexeme (.string h)
    · exact .run h
    · exact .lexeme (.symbol h)

theorem Shape.ne_nil {t : List Char} (h : Shape t) : t ≠ [] := by
  rintro rfl
  generalize ht : ([] : List Char) = t at h
  cases h with
  | skipped h => cases h <;> cases ht
  | run h => subst ht; cases h
  | lexeme h =>
    cases h with
    | number negative h =>
      have hr := isRun_numeral negative (numeral_of_fraction h).1
      rw [← ht] at hr
      cases hr
    | symbol h => subst ht; cases h
    | _ => cases ht

/-! ## 4. String literals -/

theorem literalUnescape?_eq_some_iff {d c : Char} :
    Text.literalUnescape? d = some c ↔ (d, c) ∈ escapes := by
  constructor
  · intro h
    unfold Text.literalUnescape? at h
    split at h <;> cases h <;> decide
  · intro h
    simp only [escapes, List.mem_cons, Prod.mk.injEq, List.not_mem_nil, or_false] at h
    rcases h with ⟨rfl, rfl⟩ | ⟨rfl, rfl⟩ | ⟨rfl, rfl⟩ | ⟨rfl, rfl⟩ | ⟨rfl, rfl⟩ <;> rfl

/-- A spelled text is read up to the first quote behind it. -/
theorem stringBody_of_spells {written content : List Char} (h : Spells written content)
    (k : List Char) :
    ∃ body, stringBody (written ++ '"' :: k) = .ok body ∧ body.content = content ∧
      body.rest = k := by
  induction h with
  | nil => exact ⟨_, rfl, rfl, rfl⟩
  | plain hq hb _ ih =>
    obtain ⟨body, hbody, hcontent, hrest⟩ := ih
    obtain ⟨longer, hl, hc, hr⟩ := stringBody_plain _ hq hb hbody
    exact ⟨longer, hl, by rw [hc, hcontent], by rw [hr, hrest]⟩
  | escape hd _ ih =>
    obtain ⟨body, hbody, hcontent, hrest⟩ := ih
    obtain ⟨longer, hl, hc, hr⟩ :=
      stringBody_escaped _ (literalUnescape?_eq_some_iff.2 hd) hbody
    exact ⟨longer, hl, by rw [hc, hcontent], by rw [hr, hrest]⟩

theorem StringBody.written_eq {whole written rest : List Char} (body : StringBody whole)
    (hr : body.rest = rest) (h : whole = written ++ rest) : body.written = written := by
  subst hr
  exact List.append_cancel_right (body.append_eq.trans h)

/-- What is read of a string literal is spelled, and ends with its closing quote. -/
theorem spells_of_stringBody {cs : List Char} {body : StringBody cs}
    (h : stringBody cs = .ok body) :
    ∃ written, Spells written body.content ∧ body.written = written ++ ['"'] := by
  fun_induction stringBody cs with
  | case1 => cases h
  | case2 cs => cases h; exact ⟨[], .nil, rfl⟩
  | case3 => cases h
  | case4 => cases h
  | case5 => cases h
  | case6 c cs d hd inner hinner ih =>
    cases h
    obtain ⟨written, hs, hw⟩ := ih hinner
    refine ⟨'\\' :: c :: written, .escape (literalUnescape?_eq_some_iff.1 hd) hs, ?_⟩
    show '\\' :: c :: inner.written = _
    rw [hw, List.cons_append, List.cons_append]
  | case7 => cases h
  | case8 c cs hq hlast hb inner hinner ih =>
    cases h
    obtain ⟨written, hs, hw⟩ := ih hinner
    have hne : c ≠ '\\' := by
      intro hc
      cases cs with
      | nil => exact hlast hc rfl
      | cons d cs => exact hb d cs hc rfl
    refine ⟨c :: written, .plain hq hne hs, ?_⟩
    show c :: inner.written = _
    rw [hw, List.cons_append]

/-- No string literal is the beginning of a longer one. -/
theorem Spells.append_ne {written written' content content' u : List Char} {d : Char}
    (h : Spells written content) (h' : Spells written' content') :
    (written ++ ['"']) ++ d :: u ≠ written' ++ ['"'] := by
  intro heq
  have htext : written ++ '"' :: d :: u = written' ++ '"' :: [] := by simpa using heq
  have hend := stringBody_of_spells h' []
  rw [← htext] at hend
  obtain ⟨body', hbody', -, hrest'⟩ := hend
  obtain ⟨body, hbody, -, hrest⟩ := stringBody_of_spells h (d :: u)
  cases hbody.symm.trans hbody'
  cases hrest.symm.trans hrest'

/-! ## 5. The longest match -/

theorem shape_comment_iff {cs : List Char} : Shape (';' :: cs) ↔ '\n' ∉ cs := by
  rw [shape_cons_iff]
  simp [isBlank, isRun, startsNumber, isSymbolName, isSymbolChar]

theorem shape_hash_iff {cs : List Char} : Shape ('#' :: cs) ↔ cs = ['t'] ∨ cs = ['f'] := by
  rw [shape_cons_iff]
  simp [isBlank, isRun, startsNumber, isSymbolName, isSymbolChar]

theorem shape_quote_iff {cs : List Char} :
    Shape ('"' :: cs) ↔ ∃ written content, Spells written content ∧ cs = written ++ ['"'] := by
  rw [shape_cons_iff]
  simp [isBlank, isRun, startsNumber, isSymbolName, isSymbolChar]

/-- Blanks, brackets and quote marks stand alone. -/
theorem not_shape_single {c : Char} (h : isBlank c = true ∨ c = '(' ∨ c = ')' ∨ c = '\x27')
    (d : Char) : ¬Shape [c, d] := by
  rw [shape_cons_iff]
  have hc : (((c = ' ' ∨ c = '\t') ∨ c = '\r') ∨ c = '\n') ∨ c = '(' ∨ c = ')' ∨ c = '\x27' := by
    simpa [isBlank] using h
  rcases hc with (((rfl | rfl) | rfl) | rfl) | rfl | rfl | rfl <;>
    simp [isRun, startsNumber, isSymbolName, isSymbolChar]

/-- What begins a number is the same two characters, whatever stands behind them. -/
theorem startsNumber_snoc (b c : Char) (bs u : List Char) :
    startsNumber b (bs ++ [c]) = startsNumber b (bs ++ c :: u) := by
  cases bs <;> rfl

/-- **A shape that can grow can grow by one character.** -/
theorem Shape.snoc {t u : List Char} {c : Char} (h : Shape t) (h' : Shape (t ++ c :: u)) :
    Shape (t ++ [c]) := by
  have hmem : ∀ (bs : List Char) (d : Char), d ∈ bs ++ [c] → d ∈ bs ++ c :: u := by
    intro bs d hd
    rw [List.mem_append, List.mem_singleton] at hd
    rw [List.mem_append, List.mem_cons]
    exact hd.imp_right .inl
  cases t with
  | nil => exact absurd rfl h.ne_nil
  | cons b bs =>
    rw [List.cons_append, shape_cons_iff] at h'
    rw [List.cons_append]
    rcases h' with ⟨hnil, -⟩ | ⟨rfl, hlf⟩ | ⟨rfl, ht⟩ | ⟨rfl, written, content, hs, ht⟩ | hr | hn
    · simp at hnil
    · exact .skipped (.comment fun hm => hlf (hmem bs _ hm))
    · rcases shape_hash_iff.1 h with rfl | rfl <;> simp at ht
    · obtain ⟨written', content', hs', rfl⟩ := shape_quote_iff.1 h
      exact absurd ht (hs'.append_ne hs)
    · rw [isRun, Bool.and_eq_true, List.all_eq_true] at hr
      refine .run ?_
      rw [isRun, Bool.and_eq_true, List.all_eq_true, startsNumber_snoc b c bs u]
      exact ⟨hr.1, fun d hd => hr.2 d (hmem bs d hd)⟩
    · rw [isSymbolName, Bool.and_eq_true, List.all_eq_true] at hn
      refine .lexeme (.symbol ?_)
      rw [isSymbolName, Bool.and_eq_true, List.all_eq_true, startsNumber_snoc b c bs u]
      exact ⟨fun d hd => hn.1 d (hmem (b :: bs) d hd), hn.2⟩

/-- **One character decides.** A shape is the longest one exactly if it is no shape together with
    the character behind it. -/
theorem longest_iff {t rest : List Char} (h : Shape t) :
    Longest (t ++ rest) t ↔ ∀ c ∈ rest.head?, ¬Shape (t ++ [c]) := by
  constructor
  · intro hl c hc hs
    obtain ⟨u, rfl⟩ := List.head?_eq_some_iff.1 hc
    have hle := hl.longest (t ++ [c]) ⟨u, by simp⟩ hs
    rw [List.length_append, List.length_singleton] at hle
    omega
  · intro hrest
    refine ⟨h, List.prefix_append t rest, fun longer hp hs => ?_⟩
    rcases List.prefix_or_prefix_of_prefix hp (List.prefix_append t rest) with hle | ⟨u, rfl⟩
    · exact hle.length_le
    · cases u with
      | nil => exact Nat.le_of_eq (by rw [List.append_nil])
      | cons c u =>
        have hu : c :: u <+: rest := (List.prefix_append_right_inj t).1 hp
        obtain ⟨v, rfl⟩ := hu
        exact absurd (h.snoc hs) (hrest c rfl)

/-- Two longest beginnings of one text are the same. -/
theorem Longest.unique {text t t' : List Char} (h : Longest text t) (h' : Longest text t') :
    t = t' := by
  have hlen : t.length = t'.length :=
    Nat.le_antisymm (h'.longest t h.starts h.shape) (h.longest t' h'.starts h'.shape)
  exact (List.prefix_of_prefix_length_le h.starts h'.starts (Nat.le_of_eq hlen)).eq_of_length hlen

/-! ## 6. What makes a shape grow -/

theorem startsNumber_of_append {c : Char} {cs : List Char} (h : startsNumber c cs = true)
    (k : List Char) : startsNumber c (cs ++ k) = true := by
  cases cs with
  | cons d cs => exact h
  | nil =>
    have hc : c.isDigit = true := by simpa [startsNumber] using h
    rw [startsNumber, hc, Bool.true_or]

/-- A run of digits and points grows by a digit or a point. -/
theorem shape_run_snoc_iff {t : List Char} {d : Char} (h : isRun t = true) :
    Shape (t ++ [d]) ↔ isNumberChar d = true := by
  cases t with
  | nil => cases h
  | cons c cs =>
    rw [isRun, Bool.and_eq_true, List.all_eq_true] at h
    obtain ⟨hs, hcs⟩ := h
    have hne : ∀ x, startsNumber x cs = false → c ≠ x := by
      rintro x hx rfl
      rw [hs] at hx
      cases hx
    have hs' := startsNumber_of_append hs [d]
    rw [List.cons_append, shape_cons_iff]
    constructor
    · rintro (⟨hnil, -⟩ | ⟨hc, -⟩ | ⟨hc, -⟩ | ⟨hc, -⟩ | hr | hn)
      · simp at hnil
      · exact absurd hc (hne _ rfl)
      · exact absurd hc (hne _ rfl)
      · exact absurd hc (hne _ rfl)
      · rw [isRun, Bool.and_eq_true, List.all_eq_true] at hr
        exact hr.2 d (by simp)
      · rw [isSymbolName, hs', Bool.not_true, Bool.and_false] at hn
        cases hn
    · intro hd
      have hrun : isRun (c :: (cs ++ [d])) = true := by
        rw [isRun, hs', Bool.true_and, List.all_append, List.all_eq_true.2 hcs]
        simpa using hd
      exact .inr (.inr (.inr (.inr (.inl hrun))))

theorem isSymbolChar_of_isNumberChar {c : Char} (h : isNumberChar c = true) :
    isSymbolChar c = true := by
  rw [isNumberChar, Bool.or_eq_true, beq_iff_eq] at h
  rcases h with h | rfl
  · rw [isSymbolChar, Char.isAlphanum, h, Bool.or_true, Bool.true_or]
  · decide

/-- A name grows by a symbol character; a minus sign can become the sign of a number that way. -/
theorem shape_symbol_snoc_iff {t : List Char} {d : Char} (h : isSymbolName t = true) :
    Shape (t ++ [d]) ↔ isSymbolChar d = true := by
  cases t with
  | nil => cases h
  | cons c cs =>
    rw [isSymbolName, Bool.and_eq_true, List.all_eq_true] at h
    obtain ⟨hall, hs⟩ := h
    have hne : ∀ x, isSymbolChar x = false → c ≠ x := by
      rintro x hx rfl
      rw [hall c List.mem_cons_self] at hx
      cases hx
    rw [List.cons_append, shape_cons_iff]
    constructor
    · rintro (⟨hnil, -⟩ | ⟨hc, -⟩ | ⟨hc, -⟩ | ⟨hc, -⟩ | hr | hn)
      · simp at hnil
      · exact absurd hc (hne _ rfl)
      · exact absurd hc (hne _ rfl)
      · exact absurd hc (hne _ rfl)
      · rw [isRun, Bool.and_eq_true, List.all_eq_true] at hr
        exact isSymbolChar_of_isNumberChar (hr.2 d (by simp))
      · rw [isSymbolName, Bool.and_eq_true, List.all_eq_true] at hn
        exact hn.1 d (by simp)
    · intro hd
      by_cases hnum : startsNumber c (cs ++ [d]) = true
      · -- only a sign that stands alone can become the beginning of a number
        cases cs with
        | cons e es =>
          have hsame : startsNumber c (e :: es) = true := hnum
          rw [hsame] at hs
          cases hs
        | nil =>
          have hd' : d.isDigit = true := by
            have hc : c.isDigit = false := by simpa [startsNumber] using hs
            simp_all [startsNumber]
          have hrun : isRun (c :: ([] ++ [d])) = true := by
            rw [isRun, hnum]
            simp [Number.isNumberChar_of_isDigit hd']
          exact .inr (.inr (.inr (.inr (.inl hrun))))
      · have hname : isSymbolName (c :: (cs ++ [d])) = true := by
          rw [isSymbolName, ← List.cons_append, List.all_append, List.all_eq_true.2 hall]
          simpa [hd] using hnum
        exact .inr (.inr (.inr (.inr (.inr hname))))

/-- **No lexeme grows by a character that is in no symbol.** -/
theorem Lexeme.not_snoc {t : List Char} {k : Kind} (h : Lexeme t k) {c : Char}
    (hc : isSymbolChar c = false) : ¬Shape (t ++ [c]) := by
  cases h with
  | leftBracket => exact not_shape_single (.inr (.inl rfl)) c
  | rightBracket => exact not_shape_single (.inr (.inr (.inl rfl))) c
  | quote => exact not_shape_single (.inr (.inr (.inr rfl))) c
  | yes | no =>
    intro hshape
    simpa using shape_hash_iff.1 hshape
  | string hs =>
    intro hshape
    obtain ⟨written', content', hs', heq⟩ := shape_quote_iff.1 hshape
    exact hs.append_ne hs' heq
  | number negative hf =>
    rw [shape_run_snoc_iff (isRun_numeral negative (numeral_of_fraction hf).1)]
    intro hnumber
    rw [isSymbolChar_of_isNumberChar hnumber] at hc
    cases hc
  | symbol hn =>
    rw [shape_symbol_snoc_iff hn, hc]
    decide

/-! ## 7. Cutting off a lexeme -/

/-- **A longest beginning that is a lexeme is cut off.** -/
theorem begins_of_longest {t rest : List Char} {k : Kind} (h : Lexeme t k)
    (hl : Longest (t ++ rest) t) : Begins (t ++ rest) k t rest := by
  have hend := (longest_iff hl.shape).1 hl
  cases h with
  | leftBracket => exact begins_leftBracket rest
  | rightBracket => exact begins_rightBracket rest
  | quote => exact .cut ⟨.quote, ['\x27'], rest, rfl, nofun⟩ rfl (by decide) rfl
  | yes => exact begins_true rest
  | no => exact begins_false rest
  | @string written content h =>
    obtain ⟨body, hbody, rfl, hrest⟩ := stringBody_of_spells h rest
    have hwritten : body.written = written ++ ['"'] := body.written_eq hrest (by simp)
    have hb := begins_of_stringBody hbody
    rw [hwritten, hrest] at hb
    simpa using hb
  | @number negative run n d h =>
    obtain ⟨hrun, hvalue⟩ := numeral_of_fraction h
    rw [hvalue negative]
    refine begins_numeral hrun (fun c hc => ?_) negative
    have hgrow := hend c hc
    rwa [shape_run_snoc_iff (isRun_numeral negative hrun), Bool.not_eq_true] at hgrow
  | symbol h =>
    refine begins_symbol h fun c hc => ?_
    have hgrow := hend c hc
    rwa [shape_symbol_snoc_iff h, Bool.not_eq_true] at hgrow

/-- A lexeme that does not grow by the character behind it. -/
structure Complete (t : List Char) (k : Kind) (rest : List Char) : Prop where
  lexeme : Lexeme t k
  ends : ∀ d ∈ rest.head?, ¬Shape (t ++ [d])

/-- A run of a class of characters ends before a character that is not in the class. -/
theorem head?_dropWhile_eq_false (p : Char → Bool) (cs : List Char) :
    ∀ c ∈ (cs.dropWhile p).head?, p c = false := by
  intro c hc
  have hhead := List.head?_dropWhile_not p cs
  rw [hc] at hhead
  exact hhead

/-- What `cutNumber` cuts off is a numeral behind a sign. -/
theorem numeral_of_cutNumber {c : Char} {cs : List Char} {j : Cut (c :: cs)}
    (hs : startsNumber c cs = true) (h : cutNumber c cs = .ok j) :
    ∃ negative run, Number.Numeral run ∧ j.lexeme = minus negative ++ run ∧
      j.kind = .number (Number.ofRun negative run) ∧ j.rest = cs.dropWhile isNumberChar := by
  have hrun : ∀ ds : List Char, ∀ x ∈ ds.takeWhile isNumberChar, isNumberChar x = true :=
    fun ds => List.all_eq_true.1 List.all_takeWhile
  unfold cutNumber at h
  by_cases hm : c = '-'
  · subst hm
    cases cs with
    | nil => cases hs
    | cons d ds =>
      have hd : d.isDigit = true := by simpa [startsNumber] using hs
      have htake : (d :: ds).takeWhile isNumberChar = d :: ds.takeWhile isNumberChar :=
        List.takeWhile_cons_of_pos (Number.isNumberChar_of_isDigit hd)
      simp only [beq_self_eq_true, if_true, htake] at h
      split at h
      · rename_i hcount
        cases h
        exact ⟨true, _, numeral_of_count_le hd (hrun ds) hcount, rfl, rfl, rfl⟩
      · cases h
  · have hc : c.isDigit = true := by simpa [startsNumber, hm] using hs
    have hm' : (c == '-') = false := beq_eq_false_iff_ne.2 hm
    simp only [hm', Bool.false_eq_true, if_false] at h
    split at h
    · rename_i hcount
      cases h
      exact ⟨false, _, numeral_of_count_le hc (hrun cs) hcount, rfl, rfl, rfl⟩
    · cases h

theorem complete_of_cutNumber {c : Char} {cs : List Char} {j : Cut (c :: cs)}
    (hs : startsNumber c cs = true) (h : cutNumber c cs = .ok j) :
    Complete j.lexeme j.kind j.rest := by
  obtain ⟨negative, run, hn, ht, hk, hr⟩ := numeral_of_cutNumber hs h
  rw [ht, hk, hr]
  refine ⟨lexeme_numeral negative hn, fun d hd => ?_⟩
  rw [shape_run_snoc_iff (isRun_numeral negative hn), Bool.not_eq_true]
  exact head?_dropWhile_eq_false isNumberChar cs d hd

theorem complete_of_stringBody {cs : List Char} {body : StringBody cs}
    (h : stringBody cs = .ok body) :
    Complete ('"' :: body.written) (.string (String.ofList body.content)) body.rest := by
  obtain ⟨written, hs, hw⟩ := spells_of_stringBody h
  rw [hw]
  refine ⟨.string hs, fun d _ => ?_⟩
  rw [List.cons_append, shape_quote_iff]
  rintro ⟨written', content', hs', heq⟩
  exact hs.append_ne hs' heq

/-- A run of symbol characters, where no number begins. -/
theorem complete_symbol {c : Char} {cs : List Char} (hs : startsNumber c cs = false)
    (hc : isSymbolChar c = true) :
    Complete (c :: cs.takeWhile isSymbolChar) .symbol (cs.dropWhile isSymbolChar) := by
  have hends := head?_dropWhile_eq_false isSymbolChar cs
  have hname : isSymbolName (c :: cs.takeWhile isSymbolChar) = true := by
    have hsame : startsNumber c (cs.takeWhile isSymbolChar ++ cs.dropWhile isSymbolChar)
        = startsNumber c (cs.takeWhile isSymbolChar) := startsNumber_append hends
    rw [List.takeWhile_append_dropWhile] at hsame
    simp [isSymbolName, hc, ← hsame, hs, List.all_takeWhile]
  refine ⟨.symbol hname, fun d hd => ?_⟩
  rw [shape_symbol_snoc_iff hname, Bool.not_eq_true]
  exact hends d hd

theorem complete_boolean (b : Bool) (d : Char) (rest : List Char)
    (h : d = if b then 't' else 'f') : Complete ['#', d] (.boolean b) rest := by
  subst h
  cases b with
  | true => exact ⟨.yes, fun d _ => by simp [shape_hash_iff]⟩
  | false => exact ⟨.no, fun d _ => by simp [shape_hash_iff]⟩

/-- **What is cut off is a complete lexeme.** The cases are those of the first character. -/
theorem Begins.complete {text t rest : List Char} {k : Kind} (h : Begins text k t rest) :
    Complete t k rest := by
  cases h with
  | @cut c cs j hb hc h =>
    unfold Token.cut at h
    split at h
    · rename_i hc
      subst hc
      cases h
      exact ⟨.leftBracket, fun d _ => not_shape_single (.inr (.inl rfl)) d⟩
    split at h
    · rename_i hc
      subst hc
      cases h
      exact ⟨.rightBracket, fun d _ => not_shape_single (.inr (.inr (.inl rfl))) d⟩
    split at h
    · rename_i hc
      subst hc
      cases h
      exact ⟨.quote, fun d _ => not_shape_single (.inr (.inr (.inr rfl))) d⟩
    split at h
    · rename_i hc
      subst hc
      cases cs with
      | nil => cases h
      | cons d ds =>
        dsimp only at h
        split at h
        · rename_i hd
          cases h
          exact complete_boolean true d ds hd
        split at h
        · rename_i hd
          cases h
          exact complete_boolean false d ds hd
        · cases h
    split at h
    · rename_i hc
      subst hc
      split at h
      · cases h
      · rename_i body hbody
        cases h
        exact complete_of_stringBody hbody
    split at h
    · rename_i hs
      exact complete_of_cutNumber hs h
    split at h
    · rename_i hs hc
      cases h
      exact complete_symbol (by simpa using hs) hc
    · cases h

end Token

end HostedLisp
