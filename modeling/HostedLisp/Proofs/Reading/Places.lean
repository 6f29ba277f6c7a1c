import HostedLisp.Proofs.Reading.Margins

/-!
# Places in a text

A position tells one place of a text from all others, since it moves on with every character
(`Position.behind_injective`). The scanner uses the position that it starts at for nothing but the
positions that it reports, so a text is scanned anywhere as it is scanned at the start, with the
positions counted from there (`scanFrom_countedFrom`). And it looks at a piece once only: when the
pieces up to some place are cut off, what follows is scanned as a text of its own.

* `Position.Precedes` -- the order of positions;
* `Position.countedFrom` -- a position of a text that stands somewhere in another one;
* `CutsUpTo` -- the text is cut into pieces up to a rest, which may be impossible to cut;
* `CutsUpTo.scanFrom_eq` -- **the tokens of the pieces are followed by what the rest is scanned
  to**.
-/

namespace HostedLisp

/-! ## 1. Positions -/

namespace Position

/-- The position comes before the other one, on an earlier line or on the same line. -/
def Precedes (p q : Position) : Prop := p.line < q.line ∨ (p.line = q.line ∧ p.column < q.column)

instance (p q : Position) : Decidable (p.Precedes q) := inferInstanceAs (Decidable (_ ∨ _))

theorem not_precedes_self (p : Position) : ¬p.Precedes p := by
  unfold Precedes
  omega

theorem Precedes.trans {p q r : Position} (h : p.Precedes q) (h' : q.Precedes r) :
    p.Precedes r := by
  unfold Precedes at *
  omega

theorem precedes_after (p : Position) (c : Char) : p.Precedes (p.after c) := by
  unfold after
  split
  · exact .inl (Nat.lt_succ_self _)
  · exact .inr ⟨rfl, Nat.lt_succ_self _⟩

/-- A position moves on with every character. -/
theorem precedes_afterAll (p : Position) {cs : List Char} (h : cs ≠ []) :
    p.Precedes (p.afterAll cs) := by
  induction cs generalizing p with
  | nil => exact absurd rfl h
  | cons c cs ih =>
    rw [afterAll_cons]
    cases cs with
    | nil => exact precedes_after p c
    | cons d cs => exact (precedes_after p c).trans (ih _ (List.cons_ne_nil d cs))

theorem precedes_behind (a : List Char) {cs : List Char} (h : cs ≠ []) :
    (behind a).Precedes (behind (a ++ cs)) := by
  rw [← afterAll_behind]
  exact precedes_afterAll _ h

/-- **A text has no position twice.** -/
theorem behind_injective {a b a' b' : List Char} (h : a ++ b = a' ++ b')
    (hp : behind a = behind a') : a = a' := by
  have hlonger : ∀ {a cs : List Char}, behind (a ++ cs) = behind a → cs = [] := by
    intro a cs hsame
    by_contra hcs
    have hprecedes := precedes_behind a hcs
    rw [hsame] at hprecedes
    exact not_precedes_self _ hprecedes
  rcases List.append_eq_append_iff.1 h with ⟨cs, rfl, -⟩ | ⟨cs, rfl, -⟩
  · rw [hlonger hp.symm, List.append_nil]
  · rw [hlonger hp, List.append_nil]

/-- The position `p` of a text that itself begins at `q`. -/
def countedFrom (q p : Position) : Position :=
  if p.line = 0 then ⟨q.line, q.column + p.column⟩ else ⟨q.line + p.line, p.column⟩

theorem countedFrom_start (q : Position) : q.countedFrom .start = q := rfl

theorem countedFrom_after (q p : Position) (c : Char) :
    q.countedFrom (p.after c) = (q.countedFrom p).after c := by
  unfold countedFrom after
  by_cases hc : c = '\n'
  · by_cases hp : p.line = 0 <;> simp [hc, hp, Nat.add_assoc]
  · by_cases hp : p.line = 0 <;> simp [hc, hp, Nat.add_assoc]

theorem countedFrom_afterAll (q p : Position) (cs : List Char) :
    q.countedFrom (p.afterAll cs) = (q.countedFrom p).afterAll cs := by
  induction cs generalizing p with
  | nil => rfl
  | cons c cs ih => rw [afterAll_cons, afterAll_cons, ih, countedFrom_after]

end Position

/-! ## 2. Scanning somewhere -/

/-- The token at another place. -/
def Token.moved (f : Position → Position) (t : Token) : Token := { t with position := f t.position }

/-- The failure at another place. -/
def Error.moved (f : Position → Position) : Error → Error
  | unreadable p fault => unreadable (f p) fault
  | e => e

namespace Token

/-- The tokens, or the failure to scan, at another place. -/
def movedScan (f : Position → Position) : Except Error (List Token) → Except Error (List Token)
  | .ok ts => .ok (ts.map (moved f))
  | .error e => .error (e.moved f)

/-- A lexeme becomes a token, and what is behind it is scanned as it is. -/
theorem Begins.scanFrom_eq {text lexeme rest : List Char} {kind : Kind}
    (h : Begins text kind lexeme rest) (p : Position) :
    scanFrom p text = (scanFrom (p.afterAll lexeme) rest).map
      (⟨kind, String.ofList lexeme, p⟩ :: ·) := by
  cases h with
  | cut k hblank hc hcut =>
    rw [scanFrom, if_neg (by rw [hblank]; decide), if_neg hc, hcut]
    dsimp only
    cases scanFrom (p.afterAll k.lexeme) k.rest <;> rfl

/-- **A text is scanned anywhere as it is scanned at the start**, along the scanner's own
    recursion. -/
theorem scanFrom_countedFrom (q p : Position) (text : List Char) :
    scanFrom (q.countedFrom p) text = movedScan q.countedFrom (scanFrom p text) := by
  fun_induction scanFrom p text with
  | case1 p => rw [scanFrom]; rfl
  | case2 p c cs hc ih => rw [scanFrom, if_pos hc, ← Position.countedFrom_after, ih]
  | case3 p cs hc ih =>
    rw [scanFrom, if_neg hc, if_pos rfl, ← Position.countedFrom_after,
      ← Position.countedFrom_afterAll, ih]
  | case4 p c cs hb hc fault hcut => rw [scanFrom, if_neg hb, if_neg hc, hcut]; rfl
  | case5 p c cs hb hc k hcut e he ih =>
    have hbegins : Begins (c :: cs) k.kind k.lexeme k.rest := .cut k (by simpa using hb) hc hcut
    rw [hbegins.scanFrom_eq, ← Position.countedFrom_afterAll, ih, he]
    rfl
  | case6 p c cs hb hc k hcut ts hts ih =>
    have hbegins : Begins (c :: cs) k.kind k.lexeme k.rest := .cut k (by simpa using hb) hc hcut
    rw [hbegins.scanFrom_eq, ← Position.countedFrom_afterAll, ih, hts]
    rfl

/-- The same for a text behind another one. -/
theorem scanFrom_behind (a text : List Char) :
    scanFrom (.behind a) text
      = movedScan (Position.behind a).countedFrom (scanFrom .start text) := by
  rw [← scanFrom_countedFrom, Position.countedFrom_start]

/-! ## 3. Pieces up to a place -/

/-- The text is cut from left to right, by longest match, into the pieces, behind which `rest`
    comes. -/
inductive CutsUpTo : (text : List Char) → List Piece → (rest : List Char) → Prop where
  | nil {rest : List Char} : CutsUpTo rest [] rest
  | cons {p : Piece} {text rest : List Char} {ps : List Piece} (hp : p.Valid)
      (hl : Longest (p.text ++ text) p.text) (h : CutsUpTo text ps rest) :
      CutsUpTo (p.text ++ text) (p :: ps) rest

theorem map_nil_append (r : Except Error (List Token)) : r.map ([] ++ ·) = r := by
  cases r <;> rfl

theorem map_append_map (ts us : List Token) (r : Except Error (List Token)) :
    (r.map (us ++ ·)).map (ts ++ ·) = r.map (ts ++ us ++ ·) := by
  cases r with
  | ok vs => simp [Except.map]
  | error e => rfl

/-- A longest beginning is followed by what is behind it. -/
theorem Piece.Valid.scanFrom_eq {p : Piece} (hp : p.Valid) {rest : List Char}
    (hl : Longest (p.text ++ rest) p.text) (before : List Char) :
    scanFrom (.behind before) (p.text ++ rest)
      = (scanFrom (.behind (before ++ p.text)) rest).map (tokensOf before [p] ++ ·) := by
  rw [← Position.afterAll_behind]
  cases p with
  | lexeme kind t => exact (begins_of_longest hp hl).scanFrom_eq _
  | skipped t =>
    cases hp with
    | blank hc => exact (scanFrom_blank hc _ rest).trans (map_nil_append _).symm
    | comment hcs =>
      have hend := (longest_comment_iff hcs).1 hl
      exact (scanFrom_comment hcs hend _).trans (map_nil_append _).symm

/-- The pieces and the rest make up the text. -/
theorem CutsUpTo.text_eq {text rest : List Char} {ps : List Piece} (h : CutsUpTo text ps rest) :
    ps.flatMap Piece.text ++ rest = text := by
  induction h with
  | nil => rfl
  | cons _ _ _ ih => rw [List.flatMap_cons, List.append_assoc, ih]

theorem tokensOf_cons (before : List Char) (p : Piece) (ps : List Piece) :
    tokensOf before (p :: ps) = tokensOf before [p] ++ tokensOf (before ++ p.text) ps := by
  cases p <;> rfl

/-- **The tokens of the pieces are followed by what the rest is scanned to.** -/
theorem CutsUpTo.scanFrom_eq {text rest : List Char} {ps : List Piece} (h : CutsUpTo text ps rest)
    (before : List Char) :
    scanFrom (.behind before) text
      = (scanFrom (.behind (before ++ ps.flatMap Piece.text)) rest).map
          (tokensOf before ps ++ ·) := by
  induction h generalizing before with
  | nil =>
    rw [List.flatMap_nil, List.append_nil]
    exact (map_nil_append _).symm
  | @cons p text rest ps hp hl _ ih =>
    rw [hp.scanFrom_eq hl, ih, map_append_map, ← tokensOf_cons, List.flatMap_cons,
      List.append_assoc]

/-- The pieces are what the text before the rest is cut into. -/
theorem CutsUpTo.cuts {text rest : List Char} {ps : List Piece} (h : CutsUpTo text ps rest) :
    Cuts (ps.flatMap Piece.text) ps := by
  induction h with
  | nil => exact .nil
  | @cons p text rest ps hp hl h ih =>
    rw [← h.text_eq] at hl
    exact .cons hp (hp.longest_of_append hl) ih

/-- Where a text is cut into pieces, it is cut into the first of them up to the others. -/
theorem Cuts.upTo {text : List Char} {ps qs : List Piece} (h : Cuts text (ps ++ qs)) :
    CutsUpTo text ps (qs.flatMap Piece.text) := by
  induction ps generalizing text with
  | nil =>
    rw [show qs.flatMap Piece.text = text from h.flatMap_text]
    exact .nil
  | cons p ps ih =>
    cases h with
    | cons hp hl h => exact .cons hp hl (ih h)

end Token

end HostedLisp
