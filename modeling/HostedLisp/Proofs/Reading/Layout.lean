import HostedLisp.Proofs.Reading.Places
import HostedLisp.Proofs.Reading.Rereading

/-!
# Layout

Between two pieces of a text there is room for more blanks and comments. They end the piece before
them, unless it is a comment, which takes in their first line; and what is behind them is scanned as
if nothing had come before. So the tokens are the same, those behind the new text at other places,
and the reader does not look at places.

* `Filler` -- blanks, and comments that are closed by a line break;
* `CutsUpTo.scanFrom_insert` -- the scanner with a filler between two pieces;
* `Position.inserted` -- where a position comes to be;
* `IsSeam`, `isSeam_of_edge` -- the places between two pieces, among them the beginnings and the
  ends of all tokens;
* `SameReading` -- the same program, or the same failure;
* `layout_irrelevant` -- **layout is irrelevant between tokens**.
-/

namespace HostedLisp

namespace Token

/-! ## 1. Fillers -/

/-- Blanks and comments, each comment closed by a line break. -/
inductive Filler : List Char → Prop where
  | nil : Filler []
  | blank {c : Char} {w : List Char} (hc : isBlank c = true) (h : Filler w) : Filler (c :: w)
  | comment {cs w : List Char} (hcs : '\n' ∉ cs) (h : Filler w) :
      Filler (';' :: cs ++ '\n' :: w)

/-- A filler begins with no character of a symbol. -/
theorem Filler.isSymbolChar_head {w : List Char} (h : Filler w) :
    ∀ c ∈ w.head?, isSymbolChar c = false := by
  intro c hw
  cases h with
  | nil => cases hw
  | blank hc _ =>
    cases hw
    exact isSymbolChar_of_isBlank hc
  | comment _ _ =>
    cases hw
    decide

section Scanning

variable {w rest : List Char}

theorem scanFrom_newline (p : Position) (rest : List Char) :
    scanFrom p ('\n' :: rest) = scanFrom (p.afterAll ['\n']) rest :=
  scanFrom_blank rfl p rest

/-- A comment, the line break that closes it and the rest. -/
theorem scanFrom_closed {cs : List Char} (hcs : '\n' ∉ cs) (p : Position) (rest : List Char) :
    scanFrom p (';' :: cs ++ '\n' :: rest) = scanFrom (p.afterAll (';' :: cs ++ ['\n'])) rest := by
  have hend : ∀ c ∈ ('\n' :: rest).head?, c = '\n' := by
    intro c hc
    exact (Option.some.inj hc).symm
  rw [scanFrom_comment hcs hend, scanFrom_newline, ← Position.afterAll_append]

/-- **A filler is skipped.** -/
theorem Filler.scanFrom_eq (h : Filler w) (p : Position) (rest : List Char) :
    scanFrom p (w ++ rest) = scanFrom (p.afterAll w) rest := by
  induction h generalizing p with
  | nil => rfl
  | blank hc _ ih =>
    rw [List.cons_append, ← List.singleton_append, scanFrom_blank hc, ih]
    rfl
  | @comment cs w hcs _ ih =>
    have hclosed := scanFrom_closed hcs p (w ++ rest)
    rw [ih, ← Position.afterAll_append, List.append_assoc, List.singleton_append] at hclosed
    rw [List.append_assoc]
    exact hclosed

/-- A comment that went up to a line break or to the end takes in the first line of a filler. -/
theorem Filler.scanFrom_comment_append (h : Filler w) {cs : List Char} (hcs : '\n' ∉ cs)
    (hrest : ∀ c ∈ rest.head?, c = '\n') (p : Position) :
    scanFrom p (';' :: cs ++ (w ++ rest)) = scanFrom (p.afterAll (';' :: cs ++ w)) rest := by
  induction h generalizing cs with
  | nil => rw [List.nil_append, List.append_nil, scanFrom_comment hcs hrest]
  | @blank c w hc h ih =>
    by_cases hline : c = '\n'
    · subst hline
      have hclosed := scanFrom_closed hcs p (w ++ rest)
      rw [h.scanFrom_eq, ← Position.afterAll_append, List.append_assoc,
        List.singleton_append] at hclosed
      exact hclosed
    · have hlonger : '\n' ∉ cs ++ [c] := by
        simpa [hcs] using fun he => hline he.symm
      have hnext := ih hlonger
      rw [← List.cons_append, List.append_assoc, List.append_assoc, List.singleton_append] at hnext
      exact hnext
  | @comment ds w hds h _ =>
    have hlonger : '\n' ∉ cs ++ ';' :: ds := by
      simpa using ⟨hcs, hds⟩
    have hclosed := scanFrom_closed hlonger p (w ++ rest)
    rw [h.scanFrom_eq, ← Position.afterAll_append] at hclosed
    simpa using hclosed

end Scanning

/-! ## 2. Fillers between pieces -/

/-- What is the longest beginning of a text is decided by the next character. -/
theorem Piece.Valid.longest_congr {p : Piece} (hp : p.Valid) {rest rest' : List Char}
    (hl : Longest (p.text ++ rest) p.text) (h : rest'.head? = rest.head?) :
    Longest (p.text ++ rest') p.text := by
  rw [longest_iff hp.shape] at hl ⊢
  rwa [h]

/-- The scanner with a filler behind one piece. -/
theorem Piece.Valid.scanFrom_insert {p : Piece} (hp : p.Valid) {w rest : List Char}
    (hl : Longest (p.text ++ rest) p.text) (hw : Filler w) (before : List Char) :
    scanFrom (.behind before) (p.text ++ (w ++ rest))
      = (scanFrom (.behind (before ++ (p.text ++ w))) rest).map (tokensOf before [p] ++ ·) := by
  -- every piece but a comment ends where the filler begins
  have hends : Longest (p.text ++ (w ++ rest)) p.text →
      scanFrom (.behind before) (p.text ++ (w ++ rest))
        = (scanFrom (.behind (before ++ (p.text ++ w))) rest).map (tokensOf before [p] ++ ·) := by
    intro hlongest
    rw [hp.scanFrom_eq hlongest, hw.scanFrom_eq, Position.afterAll_behind, List.append_assoc]
  cases p with
  | lexeme kind t =>
    have hlex : Lexeme t kind := hp
    cases w with
    | nil => exact hends hl
    | cons c w =>
      refine hends ((longest_iff (.lexeme hlex)).2 fun d hd => hlex.not_snoc ?_)
      exact hw.isSymbolChar_head d hd
  | skipped t =>
    cases hp with
    | blank hc => exact hends (longest_blank hc _)
    | comment hcs =>
      have hscan := hw.scanFrom_comment_append hcs ((longest_comment_iff hcs).1 hl)
        (.behind before)
      rw [Position.afterAll_behind] at hscan
      exact hscan.trans (map_nil_append _).symm

/-- **A filler between two pieces is skipped.** -/
theorem CutsUpTo.scanFrom_insert {text rest w : List Char} {ps : List Piece}
    (h : CutsUpTo text ps rest) (hw : Filler w) (before : List Char) :
    scanFrom (.behind before) (ps.flatMap Piece.text ++ (w ++ rest))
      = (scanFrom (.behind (before ++ (ps.flatMap Piece.text ++ w))) rest).map
          (tokensOf before ps ++ ·) := by
  induction h generalizing before with
  | nil =>
    rw [List.flatMap_nil, List.nil_append, List.nil_append, hw.scanFrom_eq,
      Position.afterAll_behind]
    exact (map_nil_append _).symm
  | @cons p text rest ps hp hl h ih =>
    rw [List.flatMap_cons, List.append_assoc]
    cases h with
    | nil =>
      rw [List.flatMap_nil, List.nil_append, List.append_nil]
      exact hp.scanFrom_insert hl hw before
    | @cons q text rest ps hq _ h =>
      obtain ⟨c, cs, hc⟩ := List.exists_cons_of_ne_nil hq.shape.ne_nil
      have hlongest : Longest (p.text ++ ((q :: ps).flatMap Piece.text ++ (w ++ rest))) p.text :=
        hp.longest_congr hl (by simp [hc])
      rw [hp.scanFrom_eq hlongest, ih, map_append_map, ← tokensOf_cons]
      simp only [List.append_assoc]

end Token

/-! ## 3. Places behind a filler -/

namespace Position

/-- Where a position comes to be when the text `w` is put in at the position `q`. What comes before
    `q` stays. What comes behind goes down by the lines of `w`; on the line of `q` it is as far
    behind `w` as it was behind `q`, and on further lines it keeps its column. -/
def inserted (q : Position) (w : List Char) (p : Position) : Position :=
  if p.Precedes q then p
  else if p.line = q.line then
    ⟨p.line + w.count '\n', (q.afterAll w).column + (p.column - q.column)⟩
  else ⟨p.line + w.count '\n', p.column⟩

theorem line_afterAll (q : Position) (w : List Char) :
    (q.afterAll w).line = q.line + w.count '\n' := by
  induction w generalizing q with
  | nil => rfl
  | cons c w ih =>
    rw [afterAll_cons, ih, after]
    split
    · rename_i hc
      rw [hc, List.count_cons_self]
      show q.line + 1 + w.count '\n' = _
      omega
    · rename_i hc
      rw [List.count_cons_of_ne hc]

theorem not_precedes_countedFrom (q p : Position) : ¬(q.countedFrom p).Precedes q := by
  unfold countedFrom
  split
  · rintro (hline | ⟨-, hcolumn⟩)
    · exact Nat.lt_irrefl _ hline
    · exact Nat.not_lt.2 (Nat.le_add_right _ _) hcolumn
  · rintro (hline | ⟨hline, -⟩)
    · exact Nat.not_lt.2 (Nat.le_add_right _ _) hline
    · have hsame : q.line + p.line = q.line := hline
      omega

/-- **What is counted from `q` on is counted from the end of `w` on.** -/
theorem inserted_countedFrom (q : Position) (w : List Char) (p : Position) :
    q.inserted w (q.countedFrom p) = (q.afterAll w).countedFrom p := by
  have hline := q.line_afterAll w
  rw [inserted, if_neg (not_precedes_countedFrom q p), countedFrom, countedFrom]
  by_cases hp : p.line = 0
  · simp [hp, hline]
  · have hlater : ¬q.line + p.line = q.line := by omega
    rw [if_neg hp, if_neg hp, if_neg hlater, hline, Nat.add_right_comm]

end Position

namespace Token

/-! ## 4. Seams -/

/-- The place between the texts is not strictly inside a lexeme or a comment: the joined text is cut
    into pieces, of which the first ones make up `a`. -/
def IsSeam (a b : List Char) : Prop :=
  ∃ ps qs, Cuts (a ++ b) (ps ++ qs) ∧ ps.flatMap Piece.text = a

/-- A token stands where its lexeme does. -/
theorem exists_of_mem_tokensOf {before : List Char} {ps : List Piece} {t : Token}
    (h : t ∈ tokensOf before ps) :
    ∃ ps₁ kind text ps₂, ps = ps₁ ++ .lexeme kind text :: ps₂ ∧
      t = ⟨kind, String.ofList text, .behind (before ++ ps₁.flatMap Piece.text)⟩ := by
  induction ps generalizing before with
  | nil => cases h
  | cons p ps ih =>
    have hlater : t ∈ tokensOf (before ++ p.text) ps →
        ∃ ps₁ kind text ps₂, p :: ps = ps₁ ++ .lexeme kind text :: ps₂ ∧
          t = ⟨kind, String.ofList text, .behind (before ++ ps₁.flatMap Piece.text)⟩ := by
      intro h
      obtain ⟨ps₁, kind, text, ps₂, rfl, rfl⟩ := ih h
      refine ⟨p :: ps₁, kind, text, ps₂, rfl, ?_⟩
      rw [List.flatMap_cons, List.append_assoc]
    cases p with
    | lexeme kind text =>
      rcases List.mem_cons.1 h with rfl | h
      · refine ⟨[], kind, text, ps, rfl, ?_⟩
        rw [List.flatMap_nil, List.append_nil]
      · exact hlater h
    | skipped text => exact hlater h

/-- What is cut off before a place with the position of `a` is `a`. -/
theorem isSeam_of_behind {a b : List Char} {ps qs : List Piece} (h : Cuts (a ++ b) (ps ++ qs))
    (hp : Position.behind a = .behind (ps.flatMap Piece.text)) : IsSeam a b := by
  have htext := h.flatMap_text
  rw [List.flatMap_append] at htext
  exact ⟨ps, qs, h, (Position.behind_injective htext.symm hp).symm⟩

/-- **Where a token begins or ends is a seam.** -/
theorem isSeam_of_edge {a b : String} {tokens : List Token} (h : scan (a ++ b) = .ok tokens)
    {t : Token} (ht : t ∈ tokens)
    (hedge : Position.behind a.toList = t.position ∨
      Position.behind a.toList = t.position.afterAll t.lexeme.toList) :
    IsSeam a.toList b.toList := by
  obtain ⟨ps, hps, rfl⟩ := scan_eq_ok_iff.1 h
  rw [String.toList_append] at hps
  rcases List.mem_append.1 ht with ht | ht
  · obtain ⟨ps₁, kind, text, ps₂, rfl, rfl⟩ := exists_of_mem_tokensOf ht
    rcases hedge with hedge | hedge
    · exact isSeam_of_behind hps hedge
    · have hends : Cuts (a.toList ++ b.toList) ((ps₁ ++ [.lexeme kind text]) ++ ps₂) := by
        simpa using hps
      refine isSeam_of_behind hends ?_
      rw [hedge, String.toList_ofList, Position.afterAll_behind, List.flatMap_append]
      simp [Piece.text]
  · -- the end mark, which has no text
    rw [List.mem_singleton.1 ht] at hedge
    have hend : Position.behind a.toList = .behind (ps.flatMap Piece.text) := by
      rw [hps.flatMap_text, ← String.toList_append]
      exact hedge.elim id id
    have hall : Cuts (a.toList ++ b.toList) (ps ++ []) := by rwa [List.append_nil]
    exact isSeam_of_behind hall hend

/-- The tokens before a place come before its position. -/
theorem Cuts.precedes {text : List Char} {ps : List Piece} (h : Cuts text ps) {t : Token}
    (ht : t ∈ tokensOf [] ps) : t.position.Precedes (.behind text) := by
  have hlex := h.lexeme_of_mem ht
  obtain ⟨ps₁, kind, u, ps₂, rfl, rfl⟩ := exists_of_mem_tokensOf ht
  rw [String.toList_ofList] at hlex
  rw [← h.flatMap_text, List.flatMap_append]
  refine Position.precedes_behind _ ?_
  simp [Piece.text, (Shape.lexeme hlex).ne_nil]

theorem map_moved_of_precedes {q : Position} {ts : List Token}
    (h : ∀ t ∈ ts, t.position.Precedes q) (w : List Char) :
    ts.map (moved (q.inserted w)) = ts := by
  have hsame : ∀ t ∈ ts, moved (q.inserted w) t = t := by
    intro t ht
    rw [moved, Position.inserted, if_pos (h t ht)]
  rw [List.map_congr_left hsame, List.map_id']

theorem map_moved_countedFrom (q : Position) (w : List Char) (ts : List Token) :
    (ts.map (moved q.countedFrom)).map (moved (q.inserted w))
      = ts.map (moved (q.afterAll w).countedFrom) := by
  rw [List.map_map]
  refine List.map_congr_left fun t _ => ?_
  exact congrArg (Token.mk t.kind t.lexeme) (q.inserted_countedFrom w t.position)

/-- **The tokens are the same**, those behind the filler at other places. -/
theorem IsSeam.scan_insert {a b w : String} {tokens : List Token} (h : scan (a ++ b) = .ok tokens)
    (hseam : IsSeam a.toList b.toList) (hw : Filler w.toList) :
    scan (a ++ w ++ b)
      = .ok (tokens.map (moved (Position.inserted (.behind a.toList) w.toList))) := by
  obtain ⟨ps, qs, hcuts, ha⟩ := hseam
  have hupTo := hcuts.upTo
  have hb : qs.flatMap Piece.text = b.toList := by
    have htext := hcuts.flatMap_text
    rw [List.flatMap_append, ha] at htext
    exact List.append_cancel_left htext
  rw [hb] at hupTo
  have hold := hupTo.scanFrom_eq []
  have hnew := hupTo.scanFrom_insert hw []
  rw [ha, List.nil_append, scanFrom_behind a.toList] at hold
  rw [ha, List.nil_append, scanFrom_behind (a.toList ++ w.toList)] at hnew
  have hscan : scan (a ++ b) = scanFrom (.behind []) (a.toList ++ b.toList) := by
    rw [scan, String.toList_append]
    rfl
  have hscan' : scan (a ++ w ++ b) = scanFrom (.behind []) (a.toList ++ (w.toList ++ b.toList)) := by
    rw [scan, String.toList_append, String.toList_append, List.append_assoc]
    rfl
  rw [hscan, hold] at h
  rw [hscan', hnew]
  cases hrest : scanFrom .start b.toList with
  | error e =>
    rw [hrest] at h
    cases h
  | ok us =>
    rw [hrest] at h
    cases h
    have hbefore : ∀ t ∈ tokensOf [] ps, t.position.Precedes (.behind a.toList) :=
      fun t ht => ha ▸ hupTo.cuts.precedes ht
    rw [List.map_append, map_moved_of_precedes hbefore, map_moved_countedFrom,
      Position.afterAll_behind]
    rfl

end Token

/-! ## 5. Reading -/

namespace Program

open Token

theorem body_moved (f : Position → Position) (ts : List Token) :
    body (ts.map (moved f)) = (body ts).map (moved f) :=
  List.takeWhile_map

theorem ofTokens_moved (f : Position → Position) (ts : List Token) :
    SameReading (ofTokens (ts.map (moved f))) (ofTokens ts) := by
  rw [ofTokens, ofTokens, body_moved, List.isEmpty_map]
  split
  · exact .failure _ _ _
  · refine read_unplaced ?_ _ _ _ _
    rw [List.map_map]
    rfl

/-- **Layout is irrelevant between tokens.** For every place in a text that is scanned, between its
    parts `a` and `b`:

    * if a token begins or ends there, the place is a seam, not inside a lexeme or a comment;
    * if it is a seam, a text with any filler put in there is scanned to the same kinds and lexemes,
      at the places that the filler moves them to;
    * and it is read as the same program, or fails with the same message. -/
theorem layout_irrelevant {a b : String} {tokens : List Token} (h : scan (a ++ b) = .ok tokens) :
    (∀ t ∈ tokens, Position.behind a.toList = t.position ∨
        Position.behind a.toList = t.position.afterAll t.lexeme.toList →
      IsSeam a.toList b.toList) ∧
    (IsSeam a.toList b.toList → ∀ w : String, Filler w.toList →
      scan (a ++ w ++ b)
          = .ok (tokens.map (moved (Position.inserted (.behind a.toList) w.toList))) ∧
        SameReading (parse (a ++ w ++ b)) (parse (a ++ b))) := by
  refine ⟨fun t ht hedge => isSeam_of_edge h ht hedge, fun hseam w hw => ?_⟩
  have hscan := hseam.scan_insert h hw
  refine ⟨hscan, ?_⟩
  rw [parse, parse, hscan, h]
  exact ofTokens_moved _ tokens

/-- Between two lexemes that touch, a blank, a comment that holds a bracket, and a tab. -/
theorem layout_irrelevant_adjacent :
    let a := "(#t"
    let b := "rue ;c\n'b)"
    let w := " ;x(\n\t"
    scan (a ++ b) = .ok [⟨.leftBracket, "(", ⟨0, 0⟩⟩, ⟨.boolean true, "#t", ⟨0, 1⟩⟩,
        ⟨.symbol, "rue", ⟨0, 3⟩⟩, ⟨.quote, "'", ⟨1, 0⟩⟩, ⟨.symbol, "b", ⟨1, 1⟩⟩,
        ⟨.rightBracket, ")", ⟨1, 2⟩⟩, ⟨.finish, "", ⟨1, 3⟩⟩] ∧
      Filler w.toList ∧
      scan (a ++ w ++ b) = .ok [⟨.leftBracket, "(", ⟨0, 0⟩⟩, ⟨.boolean true, "#t", ⟨0, 1⟩⟩,
        ⟨.symbol, "rue", ⟨1, 1⟩⟩, ⟨.quote, "'", ⟨2, 0⟩⟩, ⟨.symbol, "b", ⟨2, 1⟩⟩,
        ⟨.rightBracket, ")", ⟨2, 2⟩⟩, ⟨.finish, "", ⟨2, 3⟩⟩] ∧
      SameReading (parse (a ++ w ++ b)) (parse (a ++ b)) := by
  intro a b w
  have hscan : scan (a ++ b) = .ok [⟨.leftBracket, "(", ⟨0, 0⟩⟩, ⟨.boolean true, "#t", ⟨0, 1⟩⟩,
      ⟨.symbol, "rue", ⟨0, 3⟩⟩, ⟨.quote, "'", ⟨1, 0⟩⟩, ⟨.symbol, "b", ⟨1, 1⟩⟩,
      ⟨.rightBracket, ")", ⟨1, 2⟩⟩, ⟨.finish, "", ⟨1, 3⟩⟩] := by cbv
  have hw : Filler w.toList := by
    rw [show w.toList = ' ' :: (';' :: ['x', '('] ++ '\n' :: ['\t']) by decide]
    exact .blank rfl (.comment (by decide) (.blank rfl .nil))
  obtain ⟨hedges, hseam⟩ := layout_irrelevant hscan
  -- the boolean ends where the symbol begins
  have hplace := hedges ⟨.boolean true, "#t", ⟨0, 1⟩⟩ (by simp) (.inr (by decide))
  obtain ⟨hmoved, hsame⟩ := hseam hplace w hw
  exact ⟨hscan, hw, hmoved.trans (by decide), hsame⟩

end Program

end HostedLisp
