import HostedLisp.Proofs.Reading.LongestMatch

/-!
# Texts joined by a line break

No shape goes on behind a line break unless it began before the end of its own lexeme: a comment
stops there, and so does every number and every name. So two texts that are joined by a line break
are cut as each is cut by itself (`Cuts.append_newline`). The reader does not look at positions
(`read_unplaced`), and what it has delivered it does not look at again, so that

* `parse_append_newline` -- **the joined text is read as the expressions of both**.
-/

namespace HostedLisp

namespace Token

/-! ## 1. The seam -/

/-- A line break makes no shape grow. -/
theorem Shape.not_snoc_newline {t : List Char} (h : Shape t) : ¬Shape (t ++ ['\n']) := by
  cases t with
  | nil => exact absurd rfl h.ne_nil
  | cons c cs =>
    rw [List.cons_append, shape_cons_iff]
    rintro (⟨hnil, -⟩ | ⟨-, hlf⟩ | ⟨-, ht | hf⟩ | ⟨-, written, content, -, hq⟩ | hr | hn)
    · simp at hnil
    · exact hlf (by simp)
    · cases cs <;> simp at ht
    · cases cs <;> simp at hf
    · have hlast := congrArg List.getLast? hq
      simp at hlast
    · rw [isRun, Bool.and_eq_true, List.all_eq_true] at hr
      exact absurd (hr.2 '\n' (by simp)) (by decide)
    · rw [isSymbolName, Bool.and_eq_true, List.all_eq_true] at hn
      exact absurd (hn.1 '\n' (by simp)) (by decide)

/-- What is the longest beginning of a text stays so when a line break and more follow the text. -/
theorem Longest.append_newline {t rest : List Char} (h : Longest (t ++ rest) t)
    (behind : List Char) : Longest (t ++ (rest ++ '\n' :: behind)) t := by
  have hend := (longest_iff h.shape).1 h
  rw [longest_iff h.shape]
  cases rest with
  | nil =>
    intro c hc
    obtain rfl : '\n' = c := by simpa using hc
    exact h.shape.not_snoc_newline
  | cons d rest => exact hend

/-- **Texts joined by a line break are cut as each is cut by itself.** -/
theorem Cuts.append_newline {a b : List Char} {ps qs : List Piece} (ha : Cuts a ps)
    (hb : Cuts b qs) : Cuts (a ++ '\n' :: b) (ps ++ .skipped ['\n'] :: qs) := by
  induction ha with
  | nil => exact hb.blank rfl
  | @cons p rest ps hp hl _ ih =>
    rw [List.append_assoc, List.cons_append]
    exact .cons hp (hl.append_newline b) ih

/-! ## 2. The tokens on both sides -/

/-- A token without its position. -/
def unplaced (t : Token) : Kind × String := (t.kind, t.lexeme)

theorem tokensOf_append (before : List Char) (ps qs : List Piece) :
    tokensOf before (ps ++ qs)
      = tokensOf before ps ++ tokensOf (before ++ ps.flatMap Piece.text) qs := by
  induction ps generalizing before with
  | nil => simp [tokensOf]
  | cons p ps ih =>
    cases p with
    | lexeme kind t =>
      simp only [List.cons_append, tokensOf, ih, List.flatMap_cons, Piece.text, List.append_assoc]
    | skipped t =>
      simp only [List.cons_append, tokensOf, ih, List.flatMap_cons, Piece.text, List.append_assoc]

/-- What stands before pieces changes nothing but the positions of their tokens. -/
theorem unplaced_tokensOf (before before' : List Char) (ps : List Piece) :
    (tokensOf before ps).map unplaced = (tokensOf before' ps).map unplaced := by
  induction ps generalizing before before' with
  | nil => rfl
  | cons p ps ih =>
    cases p with
    | lexeme kind t =>
      simp only [tokensOf, List.map_cons]
      rw [ih (before ++ t) (before' ++ t)]
      rfl
    | skipped t => exact ih (before ++ t) (before' ++ t)

/-- The tokens of pieces are all that stands before the end mark. -/
theorem Cuts.body_tokensOf {text before : List Char} {ps : List Piece} (h : Cuts text ps)
    (finish : List Char) :
    Program.body (tokensOf before ps ++ [endOf finish]) = tokensOf before ps := by
  have hopen : ∀ t ∈ tokensOf before ps, (!t.isFinish) = true := by
    intro t ht
    rw [h.isFinish_of_mem ht]
    rfl
  rw [Program.body, List.takeWhile_append_of_pos hopen]
  exact List.append_nil _

end Token

namespace Program

open Token

/-! ## 3. Reading without positions -/

/-- The same program, or failures at some places for the same reason. -/
inductive SameReading : Except Error (List Datum) → Except Error (List Datum) → Prop where
  | program (es : List Datum) : SameReading (.ok es) (.ok es)
  | failure (p p' : Position) (fault : SyntaxFault) :
      SameReading (.error (.unreadable p fault)) (.error (.unreadable p' fault))

theorem SameReading.eq_ok {r : Except Error (List Datum)} {es : List Datum}
    (h : SameReading (.ok es) r) : r = .ok es := by
  cases h
  rfl

/-- **Tokens that differ in their positions only are read as the same.** -/
theorem read_unplaced {ts us : List Token} (h : ts.map unplaced = us.map unplaced)
    (finish finish' : Position) (stack : List Pending) (done : List Datum) :
    SameReading (read finish ts stack done) (read finish' us stack done) := by
  induction ts generalizing us stack done with
  | nil =>
    cases us with
    | cons u us => cases h
    | nil =>
      match stack with
      | [] => exact .program _
      | .quote :: _ | .list _ :: _ => exact .failure _ _ _
  | cons t ts ih =>
    cases us with
    | nil => cases h
    | cons u us =>
      rw [List.map_cons, List.map_cons] at h
      obtain ⟨htu, hrest⟩ := List.cons.inj h
      obtain ⟨kind, lexeme, p⟩ := t
      obtain ⟨kind', lexeme', p'⟩ := u
      cases htu
      cases kind with
      | leftBracket | quote => exact ih hrest _ _
      | rightBracket =>
        match stack with
        | [] | .quote :: _ => exact .failure _ _ _
        | .list _ :: _ => exact ih hrest _ _
      | finish => exact .failure _ _ _
      | _ => exact ih hrest _ _

/-- A text that is read is cut into the tokens of a derivation. -/
theorem exists_forest_of_parse {source : String} {es : List Datum} (h : parse source = .ok es) :
    es ≠ [] ∧ ∃ (ps : List Piece) (F : Forest), Cuts source.toList ps ∧
      F.tokens = tokensOf [] ps ∧ F.data = es := by
  unfold parse at h
  split at h
  · cases h
  · rename_i tokens hscan
    obtain ⟨ps, hps, rfl⟩ := scan_eq_ok_iff.1 hscan
    rcases Descent.parse_cases _ (Nat.le_refl _) with ⟨F, hF, hne, -, hr⟩ | ⟨p, fault, -, hr⟩
    · cases hr.symm.trans h
      refine ⟨hne, ps, F, hps, ?_, rfl⟩
      rw [hF, hps.body_tokensOf]
    · cases hr.symm.trans h

/-! ## 4. Joined texts -/

theorem Forest.tokens_ne_nil {F : Forest} (h : F.data ≠ []) : F.tokens ≠ [] := by
  cases F with
  | nil => exact absurd rfl h
  | cons T F =>
    rw [Forest.tokens]
    cases T <;> simp [Tree.tokens]

/-- Behind a derivation, tokens that have a derivation wherever they stand are read as well. -/
theorem read_forest_append {F G : Forest} {us : List Token}
    (h : G.tokens.map unplaced = us.map unplaced) (finish : Position) :
    read finish (F.tokens ++ us) [] [] = .ok (F.data ++ G.data) := by
  have hG : read finish G.tokens [] (F.data.reverse ++ []) = .ok (F.data ++ G.data) := by
    have hread := read_forest G finish [] (F.data.reverse ++ [])
    rw [List.append_nil] at hread
    rw [hread, read]
    simp
  have hsame := read_unplaced h finish finish [] (F.data.reverse ++ [])
  rw [hG] at hsame
  rw [read_forest F]
  exact hsame.eq_ok

/-- **The joined text is read as the expressions of both.** -/
theorem parse_append_newline {a b : String} {as bs : List Datum} (ha : parse a = .ok as)
    (hb : parse b = .ok bs) : parse (a ++ "\n" ++ b) = .ok (as ++ bs) := by
  obtain ⟨hne, ps, F, hps, hF, rfl⟩ := exists_forest_of_parse ha
  obtain ⟨-, qs, G, hqs, hG, rfl⟩ := exists_forest_of_parse hb
  have hcut : Cuts (a ++ "\n" ++ b).toList (ps ++ .skipped ['\n'] :: qs) := by
    have htext : (a ++ "\n" ++ b).toList = a.toList ++ '\n' :: b.toList := by simp
    rw [htext]
    exact hps.append_newline hqs
  have hscan := scan_eq_ok_iff.2 ⟨_, hcut, rfl⟩
  have htokens : tokensOf [] (ps ++ .skipped ['\n'] :: qs)
      = F.tokens ++ tokensOf (a.toList ++ ['\n']) qs := by
    rw [tokensOf_append, hps.flatMap_text, hF]
    rfl
  have hsame : G.tokens.map unplaced = (tokensOf (a.toList ++ ['\n']) qs).map unplaced := by
    rw [hG]
    exact unplaced_tokensOf [] _ qs
  have hempty : (F.tokens ++ tokensOf (a.toList ++ ['\n']) qs).isEmpty = false := by
    simp [Forest.tokens_ne_nil hne]
  rw [parse, hscan]
  show ofTokens _ = _
  rw [ofTokens, hcut.body_tokensOf, htokens, hempty, if_neg (by decide)]
  exact read_forest_append hsame _

end Program

end HostedLisp
