import HostedLisp.Proofs.Reading.Shapes

/-!
# Scanning is cutting by longest match

A text is cut from left to right. Each time the longest beginning that has a shape is cut off; it
has to be a lexeme, or something that is skipped. So there is at most one way to cut a text
(`Cuts.unique`), and the scanner finds it:

* `Piece`, `Cuts` -- the pieces that a text is cut into;
* `Position.behind` -- the position behind a text, by counting;
* `tokensOf` -- one token for each lexeme, at the position behind all that stands before it;
* `scan_eq_ok_iff` -- the scanner returns the tokens of the pieces and an end mark;
* `scan_cuts` -- **the scanner is the longest-match tokenizer of the grammar, with exact
  positions**.
-/

namespace HostedLisp

/-! ## 1. Positions -/

namespace Position

/-- The position behind a text: the line breaks in it, and the characters behind the last of
    them. -/
def behind (text : List Char) : Position :=
  ⟨text.count '\n', (text.reverse.takeWhile (· ≠ '\n')).length⟩

theorem behind_concat (text : List Char) (c : Char) :
    behind (text ++ [c]) = (behind text).after c := by
  unfold behind after
  by_cases hc : c = '\n'
  · simp [hc]
  · simp [hc]

/-- **Positions that are kept up to date character by character are the counted ones.** -/
theorem afterAll_behind (text cs : List Char) :
    (behind text).afterAll cs = behind (text ++ cs) := by
  induction cs generalizing text with
  | nil => rw [afterAll_nil, List.append_nil]
  | cons c cs ih => rw [afterAll_cons, ← behind_concat, ih, List.append_assoc, List.singleton_append]

end Position

namespace Token

/-! ## 2. Pieces -/

/-- A piece of a text. -/
inductive Piece where
  | lexeme (kind : Kind) (text : List Char)
  | skipped (text : List Char)

namespace Piece

/-- The text of a piece. -/
def text : Piece → List Char
  | lexeme _ t => t
  | skipped t => t

/-- The piece is what it is called. -/
def Valid : Piece → Prop
  | lexeme kind t => Lexeme t kind
  | skipped t => Skipped t

theorem Valid.shape {p : Piece} (h : p.Valid) : Shape p.text := by
  cases p with
  | lexeme kind t => exact .lexeme h
  | skipped t => exact .skipped h

end Piece

/-- The text is cut from left to right, by longest match, into the pieces. -/
inductive Cuts : List Char → List Piece → Prop where
  | nil : Cuts [] []
  | cons {p : Piece} {rest : List Char} {ps : List Piece} (hp : p.Valid)
      (hl : Longest (p.text ++ rest) p.text) (h : Cuts rest ps) : Cuts (p.text ++ rest) (p :: ps)

/-- The tokens of pieces that stand behind the text `before`: one for each lexeme. -/
def tokensOf (before : List Char) : List Piece → List Token
  | [] => []
  | .lexeme kind t :: ps => ⟨kind, String.ofList t, .behind before⟩ :: tokensOf (before ++ t) ps
  | .skipped t :: ps => tokensOf (before ++ t) ps

/-- The end mark behind a text. -/
def endOf (text : List Char) : Token := ⟨.finish, "", .behind text⟩

/-- The pieces make up the text. -/
theorem Cuts.flatMap_text {text : List Char} {ps : List Piece} (h : Cuts text ps) :
    ps.flatMap Piece.text = text := by
  induction h with
  | nil => rfl
  | cons _ _ _ ih => rw [List.flatMap_cons, ih]

/-! ## 3. The scanner finds the pieces -/

theorem longest_blank {c : Char} (hc : isBlank c = true) (rest : List Char) :
    Longest ([c] ++ rest) [c] :=
  (longest_iff (.skipped (.blank hc))).2 fun d _ => not_shape_single (.inl hc) d

theorem longest_comment_iff {cs rest : List Char} (hcs : '\n' ∉ cs) :
    Longest (';' :: cs ++ rest) (';' :: cs) ↔ ∀ c ∈ rest.head?, c = '\n' := by
  have hgrow : ∀ c, Shape (';' :: cs ++ [c]) ↔ c ≠ '\n' := by
    intro c
    rw [List.cons_append, shape_comment_iff, List.mem_append, List.mem_singleton]
    exact ⟨fun h hc => h (.inr hc.symm), fun h hm => hm.elim hcs fun hc => h hc.symm⟩
  rw [longest_iff (.skipped (.comment hcs))]
  constructor
  · intro h c hc
    exact Classical.not_not.1 fun hne => h c hc ((hgrow c).2 hne)
  · intro h c hc hs
    exact (hgrow c).1 hs (h c hc)

theorem scanFrom_blank {c : Char} (hc : isBlank c = true) (p : Position) (rest : List Char) :
    scanFrom p ([c] ++ rest) = scanFrom (p.afterAll [c]) rest := by
  rw [List.singleton_append, scanFrom, if_pos hc]
  rfl

theorem scanFrom_comment {cs rest : List Char} (hcs : '\n' ∉ cs)
    (hrest : ∀ c ∈ rest.head?, c = '\n') (p : Position) :
    scanFrom p (';' :: cs ++ rest) = scanFrom (p.afterAll (';' :: cs)) rest := by
  have hin : ∀ c ∈ cs, decide (c ≠ '\n') = true := by
    intro c hc
    rw [decide_eq_true_eq]
    rintro rfl
    exact hcs hc
  have hend : ∀ c ∈ rest.head?, decide (c ≠ '\n') = false := by
    intro c hc
    simp [hrest c hc]
  obtain ⟨htake, hdrop⟩ := munch hin hend
  rw [List.cons_append, scanFrom, if_neg (by decide), if_pos rfl, htake, hdrop]
  rfl

/-- A text that can be cut is scanned into the tokens of its pieces. -/
theorem scanFrom_of_cuts {text : List Char} {ps : List Piece} (h : Cuts text ps)
    (before : List Char) :
    scanFrom (.behind before) text = .ok (tokensOf before ps ++ [endOf (before ++ text)]) := by
  induction h generalizing before with
  | nil => rw [scanFrom, tokensOf, List.append_nil, List.nil_append, endOf]
  | @cons p rest ps hp hl _ ih =>
    have hrest := ih (before ++ p.text)
    rw [← Position.afterAll_behind, List.append_assoc] at hrest
    cases p with
    | lexeme kind t => exact scanFrom_of_begins (begins_of_longest hp hl) hrest
    | skipped t =>
      cases hp with
      | blank hc => exact (scanFrom_blank hc _ rest).trans hrest
      | comment hcs =>
        exact (scanFrom_comment hcs ((longest_comment_iff hcs).1 hl) _).trans hrest

theorem Begins.append_eq {text t rest : List Char} {k : Kind} (h : Begins text k t rest) :
    t ++ rest = text := by
  cases h with
  | cut j _ _ _ => exact j.append_eq

/-- What is cut off is a lexeme, and the longest one. -/
theorem Begins.longest {text t rest : List Char} {k : Kind} (h : Begins text k t rest) :
    (Piece.lexeme k t).Valid ∧ Longest (t ++ rest) t := by
  obtain ⟨hlex, hend⟩ := h.complete
  exact ⟨hlex, (longest_iff (.lexeme hlex)).2 hend⟩

/-- What the scanner cuts off is a piece. -/
theorem Begins.cuts {text t rest : List Char} {k : Kind} {ps : List Piece}
    (h : Begins text k t rest) (hps : Cuts rest ps) : Cuts text (.lexeme k t :: ps) := by
  obtain ⟨hp, hl⟩ := h.longest
  rw [← h.append_eq]
  exact .cons hp hl hps

/-- A blank is a piece. -/
theorem Cuts.blank {c : Char} {rest : List Char} {ps : List Piece} (hc : isBlank c = true)
    (hps : Cuts rest ps) : Cuts (c :: rest) (.skipped [c] :: ps) := by
  have hp : (Piece.skipped [c]).Valid := Skipped.blank hc
  exact .cons hp (longest_blank hc rest) hps

/-- So is a comment that goes up to a line break or to the end. -/
theorem Cuts.comment {cs rest : List Char} {ps : List Piece} (hcs : '\n' ∉ cs)
    (hrest : ∀ c ∈ rest.head?, c = '\n') (hps : Cuts rest ps) :
    Cuts (';' :: (cs ++ rest)) (.skipped (';' :: cs) :: ps) := by
  have hp : (Piece.skipped (';' :: cs)).Valid := Skipped.comment hcs
  exact .cons hp ((longest_comment_iff hcs).2 hrest) hps

/-- What the scanner takes for a comment goes up to a line break or to the end. -/
theorem comment_ends (cs : List Char) :
    ('\n' ∉ cs.takeWhile fun c => decide (c ≠ '\n')) ∧
      ∀ c ∈ (cs.dropWhile fun c => decide (c ≠ '\n')).head?, c = '\n' := by
  refine ⟨fun hm => ?_, fun c hc => ?_⟩
  · exact absurd (List.all_eq_true.1 List.all_takeWhile _ hm) (by decide)
  · simpa using head?_dropWhile_eq_false _ cs c hc

/-- What is scanned can be cut, by induction along the scanner's own recursion. -/
theorem exists_cuts_of_scanFrom {p : Position} {text : List Char} {tokens : List Token}
    (h : scanFrom p text = .ok tokens) : ∃ ps, Cuts text ps := by
  fun_induction scanFrom p text generalizing tokens with
  | case1 p => exact ⟨[], .nil⟩
  | case2 p c cs hc ih =>
    obtain ⟨ps, hps⟩ := ih h
    exact ⟨_, hps.blank hc⟩
  | case3 p cs _ ih =>
    obtain ⟨ps, hps⟩ := ih h
    obtain ⟨hcs, hrest⟩ := comment_ends cs
    have hcut := hps.comment hcs hrest
    rw [List.takeWhile_append_dropWhile] at hcut
    exact ⟨_, hcut⟩
  | case4 => cases h
  | case5 => cases h
  | case6 p c cs hb hc k hk ts hts ih =>
    obtain ⟨ps, hps⟩ := ih hts
    exact ⟨_, (Begins.cut k (by simpa using hb) hc hk).cuts hps⟩

/-- **The scanner returns the tokens of the pieces** and an end mark. -/
theorem scan_eq_ok_iff {source : String} {tokens : List Token} :
    scan source = .ok tokens ↔
      ∃ ps, Cuts source.toList ps ∧ tokens = tokensOf [] ps ++ [endOf source.toList] := by
  have hscan : ∀ {ps}, Cuts source.toList ps →
      scan source = .ok (tokensOf [] ps ++ [endOf source.toList]) :=
    fun hps => scanFrom_of_cuts hps []
  constructor
  · intro h
    obtain ⟨ps, hps⟩ := exists_cuts_of_scanFrom h
    cases h.symm.trans (hscan hps)
    exact ⟨ps, hps, rfl⟩
  · rintro ⟨ps, hps, rfl⟩
    exact hscan hps

/-! ## 4. There is one way to cut a text -/

theorem Begins.unique {text t t' rest rest' : List Char} {k k' : Kind}
    (h : Begins text k t rest) (h' : Begins text k' t' rest') : k = k' := by
  cases h with
  | cut j _ _ hj =>
    generalize ht : t' = u at h'
    cases h' with
    | cut j' _ _ hj' =>
      cases hj.symm.trans hj'
      rfl

/-- No lexeme begins like something that is skipped. -/
theorem Begins.not_skipped {text t rest : List Char} {k : Kind} (h : Begins text k t rest) :
    ¬Skipped t := by
  have hhead : ∃ c cs, t = c :: cs ∧ isBlank c = false ∧ c ≠ ';' := by
    cases h with
    | cut j hb hc _ =>
      obtain ⟨d, ds, hd⟩ := List.exists_cons_of_ne_nil j.lexeme_ne_nil
      have heq := j.append_eq
      rw [hd, List.cons_append] at heq
      obtain ⟨rfl, -⟩ := List.cons.inj heq
      exact ⟨d, ds, hd, hb, hc⟩
  obtain ⟨c, cs, rfl, hb, hc⟩ := hhead
  intro hs
  cases hs with
  | blank hblank =>
    rw [hb] at hblank
    cases hblank
  | comment _ => exact hc rfl

/-- A piece is fixed by its text, where that is the longest beginning. -/
theorem Piece.Valid.unique {p p' : Piece} {rest : List Char} (hp : p.Valid) (hp' : p'.Valid)
    (ht : p.text = p'.text) (hl : Longest (p.text ++ rest) p.text) : p = p' := by
  cases p with
  | lexeme kind t =>
    have hb : Begins (t ++ rest) kind t rest := begins_of_longest hp hl
    cases p' with
    | lexeme kind' t' =>
      obtain rfl : t = t' := ht
      rw [hb.unique (begins_of_longest hp' hl)]
    | skipped t' =>
      obtain rfl : t = t' := ht
      exact absurd hp' hb.not_skipped
  | skipped t =>
    cases p' with
    | lexeme kind' t' =>
      obtain rfl : t = t' := ht
      have hb : Begins (t ++ rest) kind' t rest := begins_of_longest hp' hl
      exact absurd hp hb.not_skipped
    | skipped t' => exact congrArg Piece.skipped ht

/-- **There is one way to cut a text.** -/
theorem Cuts.unique {text : List Char} {ps ps' : List Piece} (h : Cuts text ps)
    (h' : Cuts text ps') : ps = ps' := by
  induction h generalizing ps' with
  | nil =>
    generalize ht : ([] : List Char) = text at h'
    cases h' with
    | nil => rfl
    | cons hp _ _ => exact absurd (List.append_eq_nil_iff.1 ht.symm).1 hp.shape.ne_nil
  | @cons p rest ps hp hl _ ih =>
    generalize ht : p.text ++ rest = text at h'
    cases h' with
    | nil => exact absurd (List.append_eq_nil_iff.1 ht).1 hp.shape.ne_nil
    | @cons p' rest' ps' hp' hl' h' =>
      have hsame : p.text = p'.text := by
        rw [← ht] at hl'
        exact hl.unique hl'
      have hrest : rest = rest' := by
        rw [hsame] at ht
        exact List.append_cancel_left ht
      subst hrest
      rw [hp.unique hp' hsame hl, ih h']

/-! ## 5. The tokens -/

/-- No token of a piece is an end mark. -/
theorem Cuts.isFinish_of_mem {text : List Char} {ps : List Piece} (h : Cuts text ps)
    {before : List Char} {t : Token} (ht : t ∈ tokensOf before ps) : t.isFinish = false := by
  induction h generalizing before with
  | nil => cases ht
  | @cons p rest ps hp _ _ ih =>
    cases p with
    | lexeme kind u =>
      rcases List.mem_cons.1 ht with rfl | ht
      · refine Program.isFinish_of_ne ?_
        have hk : Lexeme u kind := hp
        cases hk <;> exact nofun
      · exact ih ht
    | skipped u => exact ih ht

/-- **The scanner is the longest-match tokenizer of the grammar, with exact positions.** For every
    source text:

    * scanning succeeds exactly if the text can be cut by longest match into pieces, and returns one
      token for each lexeme, with its text and its value, at the position behind all that stands
      before it, and an end mark at the position behind the text;
    * there is only one way to cut the text, and the pieces make up the text;
    * no token of a piece is an end mark. -/
theorem scan_cuts (source : String) :
    (∀ tokens, scan source = .ok tokens ↔
      ∃ ps, Cuts source.toList ps ∧ tokens = tokensOf [] ps ++ [endOf source.toList]) ∧
    (∀ ps ps', Cuts source.toList ps → Cuts source.toList ps' → ps = ps') ∧
    ∀ ps, Cuts source.toList ps →
      ps.flatMap Piece.text = source.toList ∧ ∀ t ∈ tokensOf [] ps, t.isFinish = false :=
  ⟨fun _ => scan_eq_ok_iff, fun _ _ h h' => h.unique h',
    fun _ h => ⟨h.flatMap_text, fun _ => h.isFinish_of_mem⟩⟩

end Token

end HostedLisp
