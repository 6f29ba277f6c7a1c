import HostedLisp.Proofs.Reading.Grammar

/-!
# Reading by recursive descent

A second reader of programs, which walks over a vector of tokens with a cursor: one function reads
an expression, another the items of a list, and they call each other. The vector ends in an end
mark, and the cursor never moves past one. Two things could go wrong that the machine of
`Program.read` has no room for: the cursor could leave the vector (`Stop.pastEnd`), and a list
could be refused for what it holds (`refusing`).

* `reads`, `program_cases` -- what the cursor stands before is either the tokens of
  a derivation, which is returned and passed, or the reading fails where and as the machine fails;
* `parse_cases` -- so both readers agree on all lists of tokens, and neither thing goes wrong;
* `ofTokens_derives` -- **the reader accepts what the grammar derives and nothing else**.
-/

namespace HostedLisp.Program

namespace Descent

/-! ## 1. The reader -/

/-- Why the reader stops without a result. -/
inductive Stop where
  | failed (e : Error)
  | pastEnd
  | unfinished
deriving DecidableEq

/-- An end mark at the position of the last token. -/
def endMark (tokens : List Token) : Token :=
  ⟨.finish, "", (tokens.getLast?.map Token.position).getD .start⟩

/-- The vector that the cursor walks over: the tokens, and an end mark if they do not end in one. -/
def vector (tokens : List Token) : Array Token :=
  if (tokens.getLast?.map Token.isFinish).getD false then tokens.toArray
  else tokens.toArray.push (endMark tokens)

/-- The token at the cursor. -/
def peek (v : Array Token) (i : Nat) : Except Stop Token :=
  match v[i]? with
  | some t => .ok t
  | none => .error .pastEnd

/-- The token at the cursor, and the cursor behind it; behind an end mark it does not go. -/
def advance (v : Array Token) (i : Nat) : Except Stop (Token × Nat) := do
  let t ← peek v i
  return (t, if t.isFinish then i else i + 1)

/-- The failure at a token. -/
def fail {α : Type} (t : Token) (fault : SyntaxFault) : Except Stop α :=
  .error (.failed (.unreadable t.position fault))

/-- A proper list, which is refused if an item is no expression. -/
def refusing (es : List Datum) : Except Stop Datum :=
  match es.filter fun e => !e.isExpression with
  | [] => .ok (.ofItems es)
  | refused => .error (.failed (.runtime (.notExpressions (refused.map Expression.display))))

mutual

/-- Reads an expression at the cursor. -/
def expression (v : Array Token) : (fuel : Nat) → Nat → Except Stop (Datum × Nat)
  | 0, _ => .error .unfinished
  | fuel + 1, i => do
    let (t, i) ← advance v i
    match t.kind with
    | .leftBracket => items v fuel i []
    | .quote =>
      let (e, i) ← expression v fuel i
      return (← refusing [.symbol Keyword.quote.name, e], i)
    | .symbol => return (.symbol t.lexeme, i)
    | .number x => return (.number x, i)
    | .boolean b => return (.boolean b, i)
    | .string s => return (.string s, i)
    | .rightBracket => fail t .unexpectedClose
    | .finish => fail t .unexpectedEnd

/-- Reads the items of a list behind its opening bracket; `done` holds those read so far, the
    newest first. -/
def items (v : Array Token) : (fuel : Nat) → Nat → List Datum → Except Stop (Datum × Nat)
  | 0, _, _ => .error .unfinished
  | fuel + 1, i, done => do
    let t ← peek v i
    match t.kind with
    | .rightBracket =>
      let (_, i) ← advance v i
      return (← refusing done.reverse, i)
    | .finish => fail t .unclosedList
    | _ =>
      let (e, i) ← expression v fuel i
      items v fuel i (e :: done)

end

/-- Reads expressions up to the end mark. -/
def program (v : Array Token) : (fuel : Nat) → Nat → List Datum → Except Stop (List Datum)
  | 0, _, _ => .error .unfinished
  | fuel + 1, i, done => do
    let t ← peek v i
    if t.isFinish then return done.reverse
    else
      let (e, i) ← expression v fuel i
      program v fuel i (e :: done)

/-- Reads a list of tokens. There must be at least one expression. -/
def parse (fuel : Nat) (tokens : List Token) : Except Stop (List Datum) := do
  let t ← peek (vector tokens) 0
  if t.isFinish then .error (.failed (.unreadable .start .unexpectedEnd))
  else program (vector tokens) fuel 0 []

/-! ## 2. The cursor -/

/-- The cursor stands before the tokens `ts`, behind which the end mark `finish` comes. -/
structure At (v : Array Token) (finish : Token) (i : Nat) (ts : List Token) : Prop where
  marks : finish.isFinish = true
  open_ : ∀ t ∈ ts, t.isFinish = false
  suffix : ∃ behind, v.toList.drop i = ts ++ finish :: behind

section Cursor

variable {v : Array Token} {finish t : Token} {i : Nat} {ts : List Token}

theorem getElem?_of_drop {rest : List Token} (h : v.toList.drop i = t :: rest) :
    v[i]? = some t := by
  rw [← Array.getElem?_toList, ← List.head?_drop, h]
  rfl

theorem At.peek_cons (h : At v finish i (t :: ts)) : peek v i = .ok t := by
  obtain ⟨behind, hb⟩ := h.suffix
  rw [peek, getElem?_of_drop hb]

theorem At.peek_nil (h : At v finish i []) : peek v i = .ok finish := by
  obtain ⟨behind, hb⟩ := h.suffix
  rw [peek, getElem?_of_drop hb]

theorem At.advance_cons (h : At v finish i (t :: ts)) : advance v i = .ok (t, i + 1) := by
  have ht : t.isFinish = false := h.open_ t List.mem_cons_self
  simp [advance, h.peek_cons, bind, Except.bind, ht]
  rfl

theorem At.advance_nil (h : At v finish i []) : advance v i = .ok (finish, i) := by
  simp [advance, h.peek_nil, bind, Except.bind, h.marks]
  rfl

/-- Behind one token the cursor stands before the next. -/
theorem At.tail (h : At v finish i (t :: ts)) : At v finish (i + 1) ts := by
  obtain ⟨behind, hb⟩ := h.suffix
  refine ⟨h.marks, fun u hu => h.open_ u (List.mem_cons_of_mem t hu), behind, ?_⟩
  rw [← List.drop_drop, hb]
  rfl

end Cursor

/-! ## 3. What lists hold -/

theorem isExpression_datum (T : Tree) : T.datum.isExpression = true := by
  cases T with
  | atom t e h => cases h <;> rfl
  | quote t h inner => rfl
  | list opening ho items closing hc =>
    rw [Tree.datum]
    cases items.data <;> rfl

/-- Behind a tree there are fewer tokens. -/
theorem length_lt {T : Tree} {ts us : List Token} (h : ts = T.tokens ++ us) :
    us.length < ts.length := by
  have hT : 0 < T.tokens.length := by cases T <;> simp [Tree.tokens]
  rw [h, List.length_append]
  omega

/-- A list of expressions is not refused. -/
theorem refusing_eq {es : List Datum} (h : ∀ e ∈ es, e.isExpression = true) :
    refusing es = .ok (.ofItems es) := by
  have hf : es.filter (fun e => !e.isExpression) = [] := by
    rw [List.filter_eq_nil_iff]
    intro e he
    simp [h e he]
  rw [refusing, hf]

/-! ## 4. The reader and the machine -/

/-- The machine wants an expression next: a closing bracket does not close an open list, and the
    end does not come but behind a quote mark. -/
def Wanting (ts : List Token) (stack : List Pending) : Prop :=
  (ts = [] → ∃ outer, stack = .quote :: outer) ∧
    ∀ t ∈ ts.head?, t.kind = .rightBracket → ∀ items outer, stack ≠ .list items :: outer

/-- What reading an expression before `ts` comes to: a derivation that is passed, or the failure
    that the machine comes to as well. -/
inductive ExpressionResult (v : Array Token) (finish : Token) (ts : List Token) :
    Except Stop (Datum × Nat) → Prop where
  | tree (T : Tree) (us : List Token) (j : Nat) (hts : ts = T.tokens ++ us)
      (hj : At v finish j us) : ExpressionResult v finish ts (.ok (T.datum, j))
  | fails (p : Position) (fault : SyntaxFault)
      (h : ∀ stack done, Wanting ts stack →
        read finish.position ts stack done = .error (.unreadable p fault)) :
      ExpressionResult v finish ts (.error (.failed (.unreadable p fault)))

/-- What reading items before `ts` comes to, with those of `done` read before. -/
inductive ItemsResult (v : Array Token) (finish : Token) (ts : List Token) (done : List Datum) :
    Except Stop (Datum × Nat) → Prop where
  | forest (F : Forest) (closing : Token) (us : List Token) (j : Nat)
      (hc : closing.kind = .rightBracket) (hts : ts = F.tokens ++ closing :: us)
      (hj : At v finish j us) :
      ItemsResult v finish ts done (.ok (.ofItems (done.reverse ++ F.data), j))
  | fails (p : Position) (fault : SyntaxFault)
      (h : ∀ outer finished,
        read finish.position ts (.list done :: outer) finished = .error (.unreadable p fault)) :
      ItemsResult v finish ts done (.error (.failed (.unreadable p fault)))

section Simulation

variable {v : Array Token} {finish : Token}

/-- A token that denotes something is an expression by itself. -/
theorem expressionResult_atom {t : Token} {ts : List Token} {i : Nat} {e : Datum}
    (h : At v finish i (t :: ts)) (hd : Denotes t e) :
    ExpressionResult v finish (t :: ts) (.ok (e, i + 1)) :=
  .tree (.atom t e hd) ts (i + 1) rfl h.tail

/-- What an opening bracket and the items behind it come to. -/
theorem expressionResult_list {t : Token} {ts : List Token} (ht : t.kind = .leftBracket)
    {r : Except Stop (Datum × Nat)} (h : ItemsResult v finish ts [] r) :
    ExpressionResult v finish (t :: ts) r := by
  cases h with
  | forest F closing us j hc hts hj =>
    refine .tree (.list t ht F closing hc) us j ?_ hj
    rw [hts, Tree.tokens, List.cons_append, List.append_assoc, List.singleton_append]
  | fails p fault h =>
    refine .fails p fault fun stack done _ => ?_
    rw [read_leftBracket _ _ _ _ ht]
    exact h stack done

/-- What a quote mark and the expression behind it come to. -/
theorem expressionResult_quote {t : Token} {ts : List Token} (ht : t.kind = .quote)
    {r : Except Stop (Datum × Nat)} (h : ExpressionResult v finish ts r) :
    ExpressionResult v finish (t :: ts) (do
      let (e, i) ← r
      return (← refusing [.symbol Keyword.quote.name, e], i)) := by
  cases h with
  | tree T us j hts hj =>
    have hr : refusing [.symbol Keyword.quote.name, T.datum]
        = .ok (.ofItems [.symbol Keyword.quote.name, T.datum]) := by
      refine refusing_eq ?_
      simpa using ⟨rfl, isExpression_datum T⟩
    simp only [bind, Except.bind, hr]
    refine .tree (.quote t ht T) us j ?_ hj
    rw [hts, Tree.tokens, List.cons_append]
  | fails p fault h =>
    refine .fails p fault fun stack done _ => ?_
    rw [read_quote _ _ _ _ ht]
    -- behind a quote mark the machine wants an expression, whatever comes
    exact h (.quote :: stack) done ⟨fun _ => ⟨stack, rfl⟩, fun _ _ _ _ _ => nofun⟩

/-- A closing bracket is no expression. -/
theorem expressionResult_close {t : Token} {ts : List Token} (ht : t.kind = .rightBracket) :
    ExpressionResult v finish (t :: ts) (fail t .unexpectedClose) := by
  refine .fails _ _ fun stack done hw => ?_
  have hs := hw.2 t rfl ht
  obtain ⟨kind, lexeme, position⟩ := t
  cases ht
  match stack with
  | [] | .quote :: _ => rfl
  | .list items :: outer => exact absurd rfl (hs items outer)

/-- The end is no expression either. -/
theorem expressionResult_end : ExpressionResult v finish [] (fail finish .unexpectedEnd) := by
  refine .fails _ _ fun stack done hw => ?_
  obtain ⟨outer, rfl⟩ := hw.1 rfl
  rfl

/-- What the first item and the items behind it come to. -/
theorem itemsResult_cons (fuel : Nat) {ts : List Token} {done : List Datum}
    {r : Except Stop (Datum × Nat)} (hw : ∀ outer, Wanting ts (.list done :: outer))
    (h : ExpressionResult v finish ts r)
    (hitems : ∀ {T : Tree} {us : List Token} {j : Nat}, ts = T.tokens ++ us → At v finish j us →
      ItemsResult v finish us (T.datum :: done) (items v fuel j (T.datum :: done))) :
    ItemsResult v finish ts done (do
      let (e, i) ← r
      items v fuel i (e :: done)) := by
  cases h with
  | tree T us j hts hj =>
    have hi := hitems hts hj
    simp only [bind, Except.bind]
    generalize items v fuel j (T.datum :: done) = r at hi ⊢
    cases hi with
    | forest F closing ws k hc hus hk =>
      have he : done.reverse ++ (Forest.cons T F).data
          = (T.datum :: done).reverse ++ F.data := by simp [Forest.data]
      rw [← he]
      refine .forest (.cons T F) closing ws k hc ?_ hk
      rw [hts, hus, Forest.tokens, List.append_assoc]
    | fails p fault h =>
      refine .fails p fault fun outer finished => ?_
      rw [hts, read_tree T]
      exact h outer finished
  | fails p fault h => exact .fails p fault fun outer finished => h _ finished (hw outer)

/-- A closing bracket ends the items. -/
theorem itemsResult_nil {t : Token} {ts : List Token} {done : List Datum} {i : Nat}
    (ht : t.kind = .rightBracket) (h : At v finish i (t :: ts)) :
    ItemsResult v finish (t :: ts) done (.ok (.ofItems done.reverse, i + 1)) := by
  have hr : ItemsResult v finish (t :: ts) done
      (.ok (.ofItems (done.reverse ++ Forest.nil.data), i + 1)) :=
    .forest .nil t ts (i + 1) ht rfl h.tail
  rwa [Forest.data, List.append_nil] at hr

/-- With this fuel, expressions are read as the machine reads them. There is enough of it if every
    token can be met twice. -/
def ReadsExpressions (v : Array Token) (finish : Token) (fuel : Nat) : Prop :=
  ∀ {i : Nat} {ts : List Token}, At v finish i ts → 2 * ts.length + 1 ≤ fuel →
    ExpressionResult v finish ts (expression v fuel i)

/-- With this fuel, items are read as the machine reads them. -/
def ReadsItems (v : Array Token) (finish : Token) (fuel : Nat) : Prop :=
  ∀ {i : Nat} {ts : List Token} {done : List Datum}, At v finish i ts →
    2 * ts.length + 2 ≤ fuel → (∀ e ∈ done, e.isExpression = true) →
    ItemsResult v finish ts done (items v fuel i done)

/-- An expression is read by its first token. -/
theorem readsExpressions_succ {fuel : Nat} (hexpr : ReadsExpressions v finish fuel)
    (hitems : ReadsItems v finish fuel) : ReadsExpressions v finish (fuel + 1) := by
  intro i ts h hf
  cases ts with
  | nil =>
    simp only [expression, h.advance_nil, bind, Except.bind, isFinish_iff.1 h.marks]
    exact expressionResult_end
  | cons t ts =>
    rw [List.length_cons] at hf
    rw [expression, h.advance_cons]
    cases hk : t.kind with
    | leftBracket =>
      simp only [bind, Except.bind, hk]
      exact expressionResult_list hk (hitems h.tail (by omega) (by simp))
    | rightBracket =>
      simp only [bind, Except.bind, hk]
      exact expressionResult_close hk
    | quote =>
      have he := expressionResult_quote hk (hexpr h.tail (by omega))
      simpa only [bind, Except.bind, hk] using he
    | finish => exact absurd (isFinish_iff.2 hk) (by simp [h.open_ t List.mem_cons_self])
    | symbol =>
      simp only [bind, Except.bind, hk]
      exact expressionResult_atom h (.symbol hk)
    | number x =>
      simp only [bind, Except.bind, hk]
      exact expressionResult_atom h (.number hk)
    | boolean b =>
      simp only [bind, Except.bind, hk]
      exact expressionResult_atom h (.boolean hk)
    | string s =>
      simp only [bind, Except.bind, hk]
      exact expressionResult_atom h (.string hk)

/-- Items end at a closing bracket or at the end; anything else is the next one. -/
theorem readsItems_succ {fuel : Nat} (hexpr : ReadsExpressions v finish fuel)
    (hitems : ReadsItems v finish fuel) : ReadsItems v finish (fuel + 1) := by
  intro i ts done h hf hd
  cases ts with
  | nil =>
    simp only [items, h.peek_nil, bind, Except.bind, isFinish_iff.1 h.marks]
    exact .fails _ _ fun _ _ => rfl
  | cons t ts =>
    rw [List.length_cons] at hf
    by_cases hk : t.kind = .rightBracket
    · have hr : refusing done.reverse = .ok (.ofItems done.reverse) :=
        refusing_eq fun e he => hd e (List.mem_reverse.1 he)
      simp only [items, h.peek_cons, bind, Except.bind, hk, h.advance_cons, hr]
      exact itemsResult_nil hk h
    · have hn : t.kind ≠ .finish := fun hn =>
        absurd (isFinish_iff.2 hn) (by simp [h.open_ t List.mem_cons_self])
      have hw : ∀ outer, Wanting (t :: ts) (.list done :: outer) := by
        refine fun outer => ⟨nofun, fun u hu hc => ?_⟩
        cases hu
        exact absurd hc hk
      have hrest : ∀ {T : Tree} {us : List Token} {j : Nat}, t :: ts = T.tokens ++ us →
          At v finish j us →
          ItemsResult v finish us (T.datum :: done) (items v fuel j (T.datum :: done)) := by
        intro T us j hts hj
        have hl := length_lt hts
        rw [List.length_cons] at hl
        exact hitems hj (by omega) (List.forall_mem_cons.2 ⟨isExpression_datum T, hd⟩)
      have hi := itemsResult_cons fuel hw (hexpr h (by rw [List.length_cons]; omega)) hrest
      simp only [items, h.peek_cons, bind, Except.bind]
      cases hkind : t.kind with
      | rightBracket => exact absurd hkind hk
      | finish => exact absurd hkind hn
      | _ => simpa only [bind, Except.bind] using hi

/-- **The reader and the machine agree**, on expressions and on items, by induction on the
    fuel. -/
theorem reads (fuel : Nat) : ReadsExpressions v finish fuel ∧ ReadsItems v finish fuel := by
  induction fuel with
  | zero => exact ⟨fun _ hf => by omega, fun _ hf => by omega⟩
  | succ fuel ih => exact ⟨readsExpressions_succ ih.1 ih.2, readsItems_succ ih.1 ih.2⟩

/-- What reading a program before `ts` comes to, with the expressions of `done` read before. -/
inductive ProgramResult (finish : Token) (ts : List Token) (done : List Datum) :
    Except Stop (List Datum) → Prop where
  | forest (F : Forest) (hts : ts = F.tokens) :
      ProgramResult finish ts done (.ok (done.reverse ++ F.data))
  | fails (p : Position) (fault : SyntaxFault)
      (h : read finish.position ts [] done = .error (.unreadable p fault)) :
      ProgramResult finish ts done (.error (.failed (.unreadable p fault)))

theorem program_cases {fuel i : Nat} {ts : List Token} {done : List Datum}
    (h : At v finish i ts) (hf : 2 * ts.length + 2 ≤ fuel) :
    ProgramResult finish ts done (program v fuel i done) := by
  induction fuel generalizing i ts done with
  | zero => omega
  | succ fuel ih =>
    cases ts with
    | nil =>
      have hr : ProgramResult finish [] done (.ok (done.reverse ++ Forest.nil.data)) :=
        .forest .nil rfl
      simp only [program, h.peek_nil, bind, Except.bind, h.marks]
      rwa [Forest.data, List.append_nil] at hr
    | cons t ts =>
      have hn : t.isFinish = false := h.open_ t List.mem_cons_self
      have he := (reads fuel).1 h (by omega)
      simp only [program, h.peek_cons, bind, Except.bind, hn]
      generalize expression v fuel i = r at he ⊢
      cases he with
      | tree T us j hts hj =>
        have hl := length_lt hts
        simp only [Bool.false_eq_true, if_false]
        have hp : ProgramResult finish us (T.datum :: done) (program v fuel j (T.datum :: done)) :=
          ih hj (by omega)
        generalize program v fuel j (T.datum :: done) = r at hp ⊢
        cases hp with
        | forest F hus =>
          have hd : done.reverse ++ (Forest.cons T F).data
              = (T.datum :: done).reverse ++ F.data := by simp [Forest.data]
          rw [← hd]
          exact .forest (.cons T F) (by rw [hts, hus, Forest.tokens])
        | fails p fault h =>
          refine .fails p fault ?_
          rw [hts, read_tree T]
          exact h
      | fails p fault h =>
        refine .fails p fault (h [] done ⟨nofun, fun _ _ _ _ _ => nofun⟩)

end Simulation

/-! ## 5. The vector -/

/-- At the start the cursor stands before the tokens up to the first end mark, which stands where
    the input ends. -/
theorem at_vector (tokens : List Token) :
    ∃ finish : Token, At (vector tokens) finish 0 (body tokens) ∧
      finish.position = finishPosition tokens := by
  have hopen : ∀ t ∈ body tokens, t.isFinish = false := by
    intro t ht
    simpa using List.all_eq_true.1 List.all_takeWhile t ht
  have hsplit : body tokens ++ tokens.dropWhile (fun t => !t.isFinish) = tokens :=
    List.takeWhile_append_dropWhile
  cases hd : tokens.dropWhile fun t => !t.isFinish with
  | nil =>
    -- no end mark among the tokens, so one is put behind them
    rw [hd, List.append_nil] at hsplit
    have hno : ∀ t ∈ tokens, t.isFinish = false := hsplit ▸ hopen
    have hlast : (tokens.getLast?.map Token.isFinish).getD false = false := by
      cases hl : tokens.getLast? with
      | none => rfl
      | some t => exact hno t (List.mem_of_getLast? hl)
    have hfind : tokens.find? Token.isFinish = none := by
      rw [List.find?_eq_none]
      intro t ht
      simp [hno t ht]
    refine ⟨endMark tokens, ⟨rfl, hopen, [], ?_⟩, by rw [finishPosition, hfind, endMark]⟩
    simp [vector, hlast, hsplit]
  | cons finish behind =>
    rw [hd] at hsplit
    have hmark : finish.isFinish = true := by
      have hh := List.head?_dropWhile_not (fun t : Token => !t.isFinish) tokens
      simpa [hd] using hh
    have hfind : tokens.find? Token.isFinish = some finish := by
      rw [← hsplit, List.find?_append]
      have hnone : (body tokens).find? Token.isFinish = none := by
        rw [List.find?_eq_none]
        intro t ht
        simp [hopen t ht]
      rw [hnone, List.find?_cons_of_pos hmark]
      rfl
    refine ⟨finish, ⟨hmark, hopen, ?_⟩, by rw [finishPosition, hfind]⟩
    unfold vector
    split
    · exact ⟨behind, hsplit.symm⟩
    · refine ⟨behind ++ [endMark tokens], ?_⟩
      rw [List.drop_zero, Array.toList_push, ← List.cons_append, ← List.append_assoc, hsplit]

/-- A reading with enough fuel comes to a derivation of the tokens before the first end mark, or to
    a failure. -/
theorem parse_cases {fuel : Nat} (tokens : List Token) (hf : 2 * tokens.length + 2 ≤ fuel) :
    (∃ F : Forest, F.tokens = body tokens ∧ F.data ≠ [] ∧ parse fuel tokens = .ok F.data ∧
        ofTokens tokens = .ok F.data) ∨
      ∃ p fault, parse fuel tokens = .error (.failed (.unreadable p fault)) ∧
        ofTokens tokens = .error (.unreadable p fault) := by
  obtain ⟨finish, hat, hpos⟩ := at_vector tokens
  have hlen : (body tokens).length ≤ tokens.length := (List.takeWhile_prefix _).length_le
  unfold parse ofTokens
  rw [← hpos]
  cases hb : body tokens with
  | nil =>
    rw [hb] at hat
    refine .inr ⟨.start, .unexpectedEnd, ?_, rfl⟩
    simp only [hat.peek_nil, bind, Except.bind, hat.marks, if_true]
  | cons t ts =>
    rw [hb] at hat hlen
    have ht : t.isFinish = false := hat.open_ t List.mem_cons_self
    have hp : ProgramResult finish (t :: ts) [] (program (vector tokens) fuel 0 []) :=
      program_cases hat (by omega)
    simp only [hat.peek_cons, bind, Except.bind, ht, List.isEmpty_cons, Bool.false_eq_true,
      if_false]
    generalize program (vector tokens) fuel 0 [] = r at hp ⊢
    cases hp with
    | forest F hts =>
      refine .inl ⟨F, hts.symm, ?_, rfl, ?_⟩
      · cases F with
        | nil => cases hts
        | cons => simp [Forest.data]
      · have hr := read_forest F finish.position [] []
        rw [List.append_nil, List.append_nil, ← hts] at hr
        rw [hr, read, List.reverse_reverse]
    | fails p fault h => exact .inr ⟨p, fault, rfl, h⟩

end Descent

/-! ## 6. What is accepted -/

/-- A derivation is read as what it denotes. -/
theorem ofTokens_of_forest {tokens : List Token} {F : Forest} (hF : F.tokens = body tokens)
    (hne : F.data ≠ []) : ofTokens tokens = .ok F.data := by
  have hr := read_forest F (finishPosition tokens) [] []
  rw [List.append_nil, List.append_nil] at hr
  cases F with
  | nil => exact absurd rfl hne
  | cons T F =>
    have hb : (body tokens).isEmpty = false := by
      rw [← hF, Forest.tokens]
      cases T <;> rfl
    rw [ofTokens, hb, ← hF, if_neg (by simp), hr, read, List.reverse_reverse]

/-- What stands behind an end mark does not matter. -/
theorem ofTokens_append_finish (tokens : List Token) {finish : Token}
    (hf : finish.isFinish = true) (behind : List Token) :
    ofTokens (tokens ++ finish :: behind) = ofTokens (tokens ++ [finish]) := by
  have hb : body (tokens ++ finish :: behind) = body (tokens ++ [finish]) := by
    simp [body, List.takeWhile_append, hf]
  have hp : finishPosition (tokens ++ finish :: behind)
      = finishPosition (tokens ++ [finish]) := by
    simp [finishPosition, List.find?_append, hf]
  rw [ofTokens, ofTokens, hb, hp]

/-- **The reader accepts what the grammar derives and nothing else.** On every list of tokens, with
    end marks anywhere in it:

    * it returns `es` exactly if the tokens before the first end mark derive `es`, which is not
      empty;
    * those tokens have no second derivation;
    * what stands behind an end mark does not matter;
    * reading by descent returns the same without the cursor leaving the vector and without a list
      being refused;
    * whatever fails is a failure of reading. -/
theorem ofTokens_derives (tokens : List Token) :
    (∀ es, ofTokens tokens = .ok es ↔
      es ≠ [] ∧ ∃ F : Forest, F.tokens = body tokens ∧ F.data = es) ∧
    (∀ F G : Forest, F.tokens = body tokens → G.tokens = body tokens → F = G) ∧
    (∀ finish behind, finish.isFinish = true →
      ofTokens (tokens ++ finish :: behind) = ofTokens (tokens ++ [finish])) ∧
    (∀ fuel, 2 * tokens.length + 2 ≤ fuel →
      Descent.parse fuel tokens = (ofTokens tokens).mapError .failed) ∧
    ∀ e, ofTokens tokens = .error e → ∃ p fault, e = .unreadable p fault := by
  refine ⟨fun es => ⟨fun h => ?_, ?_⟩, fun F G hF hG => ?_, fun finish behind hf => ?_,
    fun fuel hf => ?_, fun e h => ?_⟩
  · rcases Descent.parse_cases tokens (Nat.le_refl _) with ⟨F, hF, hne, -, hr⟩ | ⟨p, fault, -, hr⟩
    · cases hr.symm.trans h
      exact ⟨hne, F, hF, rfl⟩
    · cases hr.symm.trans h
  · rintro ⟨hne, F, hF, rfl⟩
    exact ofTokens_of_forest hF hne
  · exact Forest.eq_of_tokens_eq (hF.trans hG.symm)
  · exact ofTokens_append_finish tokens hf behind
  · rcases Descent.parse_cases tokens hf with ⟨F, -, -, hd, hr⟩ | ⟨p, fault, hd, hr⟩
    · rw [hd, hr]
      rfl
    · rw [hd, hr]
      rfl
  · rcases Descent.parse_cases tokens (Nat.le_refl _) with ⟨F, -, -, -, hr⟩ | ⟨p, fault, -, hr⟩
    · cases hr.symm.trans h
    · cases hr.symm.trans h
      exact ⟨p, fault, rfl⟩

end HostedLisp.Program
