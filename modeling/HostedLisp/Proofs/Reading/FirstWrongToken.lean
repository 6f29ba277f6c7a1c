import HostedLisp.Proofs.Reading.Margins

/-!
# Where reading fails

Reading stops at the first token that cannot be right. Whatever state the reading machine is in, the
tokens behind it consist of complete expressions and of the beginnings of the constructs on its
stack, so they can still become a program. The machine refuses one kind of token only, a closing
bracket where no list is open; all else that can go wrong is that the tokens end too early.

* `Progress` -- the tokens behind the machine, for each of its states;
* `Progress.step`, `Progress.run` -- one token leads to another state or is refused, and so tokens
  lead to another state or up to the first that is refused;
* `Progress.viable` -- in every state what has been read can become a program;
* `EndsInList`, `EndsInQuote`, `Unfinished` -- the innermost construct that tokens leave
  unfinished, and what is said of it;
* `ofTokens_fails_at_first` -- **reading fails at the first token that cannot be right**.
-/

namespace HostedLisp.Program

/-! ## 1. Beginnings of programs -/

/-- The tokens are the beginning of some that are read. -/
def Viable (ts : List Token) : Prop := ∃ more es, ofTokens (ts ++ more) = .ok es

/-- The tokens end inside a list: behind its opening bracket there are complete expressions only. -/
def EndsInList (ts : List Token) : Prop :=
  ∃ (before : List Token) (opening : Token) (items : Forest),
    opening.kind = .leftBracket ∧ ts = before ++ opening :: items.tokens

/-- The tokens end behind a quote mark. -/
def EndsInQuote (ts : List Token) : Prop :=
  ∃ (before : List Token) (mark : Token), mark.kind = .quote ∧ ts = before ++ [mark]

/-- No expression ends in a quote mark. -/
theorem Tree.exists_last : ∀ T : Tree, ∃ ts t, T.tokens = ts ++ [t] ∧ t.kind ≠ .quote
  | .atom t _ h => ⟨[], t, rfl, h.kind_ne.2.2.1⟩
  | .quote t _ inner => by
    obtain ⟨ts, u, hts, hu⟩ := inner.exists_last
    exact ⟨t :: ts, u, by rw [Tree.tokens, hts, List.cons_append], hu⟩
  | .list opening _ items closing hc =>
    ⟨opening :: items.tokens, closing, by rw [Tree.tokens, List.cons_append], by simp [hc]⟩

theorem Forest.exists_last : ∀ F : Forest,
    F.tokens = [] ∨ ∃ ts t, F.tokens = ts ++ [t] ∧ t.kind ≠ .quote
  | .nil => .inl rfl
  | .cons T F => by
    rcases F.exists_last with hF | ⟨ts, t, hF, ht⟩
    · obtain ⟨ts, t, hT, ht⟩ := T.exists_last
      exact .inr ⟨ts, t, by rw [Forest.tokens, hF, hT, List.append_nil], ht⟩
    · exact .inr ⟨T.tokens ++ ts, t, by rw [Forest.tokens, hF, List.append_assoc], ht⟩

/-- Tokens do not end inside a list and behind a quote mark at once. -/
theorem EndsInList.not_endsInQuote {ts : List Token} (h : EndsInList ts) : ¬EndsInQuote ts := by
  obtain ⟨before, opening, items, ho, rfl⟩ := h
  rintro ⟨before', mark, hm, heq⟩
  have hlast : ∀ (us : List Token) {t : Token}, before ++ opening :: items.tokens = us ++ [t] →
      t.kind ≠ .quote → False := by
    intro us t hus ht
    obtain ⟨-, hsame⟩ := List.append_inj' (hus.symm.trans heq) rfl
    exact ht (List.singleton_injective hsame ▸ hm)
  rcases items.exists_last with hnil | ⟨us, t, hus, ht⟩
  · exact hlast before (by rw [hnil]) (by simp [ho])
  · exact hlast (before ++ opening :: us) (by rw [hus]; simp) ht

/-- The tokens end inside a list or behind a quote mark, and the message says which. -/
structure Unfinished (ts : List Token) (fault : SyntaxFault) : Prop where
  inside : EndsInList ts ∨ EndsInQuote ts
  list_iff : fault.message = "Unexpected EOF, expected ')'" ↔ EndsInList ts
  quote_iff : fault.message = "Unexpected EOF" ↔ EndsInQuote ts

theorem EndsInList.unfinished {ts : List Token} (h : EndsInList ts) :
    Unfinished ts .unclosedList :=
  ⟨.inl h, iff_of_true rfl h, iff_of_false (by decide) h.not_endsInQuote⟩

theorem EndsInQuote.unfinished {ts : List Token} (h : EndsInQuote ts) :
    Unfinished ts .unexpectedEnd :=
  ⟨.inr h, iff_of_false (by decide) fun hlist => hlist.not_endsInQuote h, iff_of_true rfl h⟩

/-! ## 2. What has been read -/

/-- The tokens that are behind the machine, when its stack and its finished expressions are these:
    complete expressions, and for each construct on the stack the token that opened it, with the
    complete items of a list behind that. -/
inductive Progress : List Token → List Pending → List Datum → Prop where
  | finished (F : Forest) : Progress F.tokens [] F.data.reverse
  | list {past : List Token} {stack : List Pending} {done : List Datum}
      (h : Progress past stack done) {t : Token} (ht : t.kind = .leftBracket) (F : Forest) :
      Progress (past ++ t :: F.tokens) (.list F.data.reverse :: stack) done
  | quote {past : List Token} {stack : List Pending} {done : List Datum}
      (h : Progress past stack done) {t : Token} (ht : t.kind = .quote) :
      Progress (past ++ [t]) (.quote :: stack) done

/-- One expression more. -/
theorem Forest.tokens_concat (F : Forest) (T : Tree) :
    (F.append (.cons T .nil)).tokens = F.tokens ++ T.tokens := by
  rw [Forest.tokens_append, Forest.tokens, Forest.tokens, List.append_nil]

theorem Forest.data_concat (F : Forest) (T : Tree) :
    (F.append (.cons T .nil)).data.reverse = T.datum :: F.data.reverse := by
  rw [Forest.data_append, Forest.data, Forest.data, List.reverse_append]
  rfl

section Progress

variable {past : List Token} {stack : List Pending} {done : List Datum}

/-- **The machine comes to this state** by reading the tokens. -/
theorem Progress.read_eq (h : Progress past stack done) (finish : Position) (more : List Token) :
    read finish (past ++ more) [] [] = read finish more stack done := by
  induction h generalizing more with
  | finished F => rw [read_forest F, List.append_nil]
  | list _ ht F ih =>
    rw [List.append_assoc, ih, List.cons_append, read_leftBracket _ _ _ _ ht, read_items F,
      List.append_nil]
  | quote _ ht ih => rw [List.append_assoc, ih, List.singleton_append, read_quote _ _ _ _ ht]

/-- A complete expression behind the tokens is delivered. -/
theorem Progress.deliver (h : Progress past stack done) (T : Tree) :
    Progress (past ++ T.tokens) (deliver T.datum stack done).1 (deliver T.datum stack done).2 := by
  induction h generalizing T with
  | finished F =>
    rw [← F.tokens_concat T, Program.deliver, ← F.data_concat T]
    exact .finished _
  | list h ht F _ =>
    rw [List.append_assoc, List.cons_append, ← F.tokens_concat T, Program.deliver,
      ← F.data_concat T]
    exact .list h ht _
  | @quote past _ _ _ t ht ih =>
    -- the quote mark and the expression are one expression for the construct outside
    rw [List.append_assoc, List.singleton_append]
    exact ih (.quote t ht T)

/-! ## 3. The next token -/

/-- The machine refuses the token, whatever stands behind it. -/
def Refuses (stack : List Pending) (done : List Datum) (t : Token) : Prop :=
  t.kind = .rightBracket ∧ ∀ finish more,
    read finish (t :: more) stack done = .error (.unreadable t.position .unexpectedClose)

/-- A closing bracket is refused where no list is open. -/
theorem refuses_of_ne {t : Token} (ht : t.kind = .rightBracket)
    (h : ∀ items outer, stack ≠ .list items :: outer) : Refuses stack done t := by
  refine ⟨ht, fun finish more => ?_⟩
  obtain ⟨kind, lexeme, position⟩ := t
  cases ht
  match stack with
  | [] | .quote :: _ => rfl
  | .list items :: outer => exact absurd rfl (h items outer)

/-- **One token leads to another state, or is refused.** -/
theorem Progress.step (h : Progress past stack done) {t : Token} (hopen : t.isFinish = false) :
    (∃ stack' done', Progress (past ++ [t]) stack' done') ∨ Refuses stack done t := by
  have hatom : ∀ {e : Datum}, Denotes t e → ∃ stack' done', Progress (past ++ [t]) stack' done' :=
    fun hd => ⟨_, _, h.deliver (.atom t _ hd)⟩
  cases hk : t.kind with
  | leftBracket => exact .inl ⟨_, _, h.list hk .nil⟩
  | quote => exact .inl ⟨_, _, h.quote hk⟩
  | rightBracket =>
    cases h with
    | finished F => exact .inr (refuses_of_ne hk nofun)
    | quote h ht => exact .inr (refuses_of_ne hk nofun)
    | @list past _ _ h opening ho F =>
      have hlist := h.deliver (.list opening ho F t hk)
      rw [Tree.tokens, ← List.cons_append, ← List.append_assoc] at hlist
      exact .inl ⟨_, _, hlist⟩
  | symbol => exact .inl (hatom (.symbol hk))
  | number x => exact .inl (hatom (.number hk))
  | boolean b => exact .inl (hatom (.boolean hk))
  | string s => exact .inl (hatom (.string hk))
  | finish => exact absurd (isFinish_iff.2 hk) (by simp [hopen])

/-- **Tokens lead to another state**, or up to the first that is refused. -/
theorem Progress.run (h : Progress past stack done) {ts : List Token}
    (hopen : ∀ t ∈ ts, t.isFinish = false) :
    (∃ stack' done', Progress (past ++ ts) stack' done') ∨
      ∃ us k vs stack' done', ts = us ++ k :: vs ∧ Progress (past ++ us) stack' done' ∧
        Refuses stack' done' k := by
  induction ts generalizing past stack done with
  | nil => exact .inl ⟨stack, done, by rwa [List.append_nil]⟩
  | cons t ts ih =>
    obtain ⟨ht, hts⟩ := List.forall_mem_cons.1 hopen
    rcases h.step ht with ⟨stack', done', h'⟩ | hrefuses
    · rcases ih h' hts with ⟨stack₁, done₁, h₁⟩ | ⟨us, k, vs, stack₁, done₁, rfl, h₁, hk⟩
      · rw [List.append_assoc, List.singleton_append] at h₁
        exact .inl ⟨stack₁, done₁, h₁⟩
      · rw [List.append_assoc, List.singleton_append] at h₁
        exact .inr ⟨t :: us, k, vs, stack₁, done₁, rfl, h₁, hk⟩
    · exact .inr ⟨[], t, ts, stack, done, rfl, by rwa [List.append_nil], hrefuses⟩

/-! ## 4. What can become a program -/

/-- A closing bracket, and an expression, somewhere. -/
def closing : Token := ⟨.rightBracket, ")", .start⟩

def anAtom : Tree := .atom ⟨.boolean true, "#t", .start⟩ (.boolean true) (.boolean rfl)

/-- With an expression more, what is unfinished can be finished, from the inside out. -/
theorem Progress.exists_forest (h : Progress past stack done) (T : Tree) :
    ∃ (more : List Token) (F : Forest), F.tokens = past ++ (T.tokens ++ more) ∧ F.data ≠ [] := by
  induction h generalizing T with
  | finished F =>
    refine ⟨[], F.append (.cons T .nil), by rw [F.tokens_concat, List.append_nil], ?_⟩
    rw [F.data_append]
    simp [Forest.data]
  | @list past _ _ _ t ht F ih =>
    obtain ⟨more, G, hG, hne⟩ := ih (.list t ht (F.append (.cons T .nil)) closing rfl)
    refine ⟨closing :: more, G, ?_, hne⟩
    simp [hG, Tree.tokens, F.tokens_concat]
  | @quote past _ _ _ t ht ih =>
    obtain ⟨more, G, hG, hne⟩ := ih (.quote t ht T)
    refine ⟨more, G, ?_, hne⟩
    simp [hG, Tree.tokens]

theorem body_append_of_open {ts : List Token} (h : ∀ t ∈ ts, t.isFinish = false)
    (more : List Token) : body (ts ++ more) = ts ++ body more :=
  List.takeWhile_append_of_pos fun t ht => by simp [h t ht]

theorem body_of_open {ts : List Token} (h : ∀ t ∈ ts, t.isFinish = false) : body ts = ts := by
  have hself := body_append_of_open h []
  rwa [List.append_nil, show body [] = [] from rfl, List.append_nil] at hself

/-- **In every state what has been read can become a program.** -/
theorem Progress.viable (h : Progress past stack done) : Viable past := by
  obtain ⟨more, F, hF, hne⟩ := h.exists_forest anAtom
  refine ⟨anAtom.tokens ++ more, F.data, ?_⟩
  rw [← hF]
  exact ofTokens_of_forest (body_of_open F.isFinish_of_mem).symm hne

/-- What begins with a token that is refused is no beginning of a program. -/
theorem Progress.not_viable (h : Progress past stack done)
    (hopen : ∀ t ∈ past, t.isFinish = false) {k : Token} (hk : Refuses stack done k) :
    ¬Viable (past ++ [k]) := by
  rintro ⟨more, es, hes⟩
  have hk' : k.isFinish = false := isFinish_of_ne (by simp [hk.1])
  have hopen' : ∀ t ∈ past ++ [k], t.isFinish = false := by
    intro t ht
    rcases List.mem_append.1 ht with ht | ht
    · exact hopen t ht
    · rwa [List.mem_singleton.1 ht]
  rw [ofTokens, body_append_of_open hopen', if_neg (by simp), List.append_assoc past [k] (body _),
    h.read_eq] at hes
  cases (hk.2 _ _).symm.trans hes

/-! ## 5. Where reading fails -/

/-- The machine at the end of the tokens: it succeeds, or names the innermost construct on its
    stack. -/
theorem Progress.read_nil (h : Progress past stack done) :
    (∃ es, ∀ finish, read finish [] stack done = .ok es) ∨
      ∃ fault, Unfinished past fault ∧
        ∀ finish, read finish [] stack done = .error (.unreadable finish fault) := by
  cases h with
  | finished F => exact .inl ⟨_, fun _ => rfl⟩
  | @list past _ _ _ t ht F =>
    have hin : EndsInList (past ++ t :: F.tokens) := ⟨past, t, F, ht, rfl⟩
    exact .inr ⟨_, hin.unfinished, fun _ => rfl⟩
  | @quote past _ _ _ t ht =>
    have hin : EndsInQuote (past ++ [t]) := ⟨past, t, ht, rfl⟩
    exact .inr ⟨_, hin.unfinished, fun _ => rfl⟩

/-- Tokens behind which the machine fails are no program. -/
theorem Progress.ofTokens_ne_ok (h : Progress past stack done)
    (hopen : ∀ t ∈ past, t.isFinish = false) {fault : SyntaxFault}
    (hfails : ∀ finish, read finish [] stack done = .error (.unreadable finish fault))
    (es : List Datum) : ofTokens past ≠ .ok es := by
  have hread := h.read_eq (finishPosition past) []
  rw [List.append_nil] at hread
  rw [ofTokens, body_of_open hopen]
  intro hok
  split at hok
  · cases hok
  · rw [hread, hfails] at hok
    cases hok

end Progress

/-- Reading `tokens` fails at `k`, behind the tokens of `before`, and `k` is the first token that
    cannot be right. -/
structure FailsAt (tokens before : List Token) (k : Token) (fault : SyntaxFault) : Prop where
  /-- `k` is one of the tokens, or the end mark that is put behind them. -/
  stands : ∃ behind, (Descent.vector tokens).toList = before ++ k :: behind
  /-- No end mark comes before it. -/
  opened : ∀ t ∈ before, t.kind ≠ .finish
  /-- What comes before it can become a program. -/
  viable : Viable before
  /-- It is a closing bracket with which that is no longer so, or it is the end of an unfinished
      program. -/
  wrong :
    (k.kind = .rightBracket ∧ ¬Viable (before ++ [k]) ∧ fault.message = "Unexpected token ')'") ∨
    (k.kind = .finish ∧ (∀ es, ofTokens before ≠ .ok es) ∧ Unfinished before fault)

/-- **Reading fails at the first token that cannot be right.** If a list with tokens before its
    first end mark is not read, the failure is at the position of a token before which everything
    can still become a program. This token is

    * a closing bracket, and nothing that begins with the tokens up to it is read; or
    * the first end mark, given or put behind the last token, where the tokens before it are no
      program: what they leave unfinished is, innermost, a list or a quote, and the message says
      which. -/
theorem ofTokens_fails_at_first {tokens : List Token} (hne : body tokens ≠ []) {e : Error}
    (h : ofTokens tokens = .error e) :
    ∃ before k fault, e = .unreadable k.position fault ∧ FailsAt tokens before k fault := by
  have hstart : Progress [] [] [] := .finished .nil
  obtain ⟨finish, ⟨hmark, hopen, behind, hvector⟩, hposition⟩ := Descent.at_vector tokens
  rw [List.drop_zero] at hvector
  have hkinds : ∀ t ∈ body tokens, t.kind ≠ .finish := fun t ht hk =>
    absurd (isFinish_iff.2 hk) (by simp [hopen t ht])
  rw [ofTokens, if_neg (by simpa using hne), ← hposition] at h
  rcases hstart.run hopen with ⟨stack, done, hend⟩ | ⟨us, k, vs, stack, done, hts, hus, hk⟩
  · -- all tokens have been read, so that the end mark is what is wrong
    rw [List.nil_append] at hend
    have hread := hend.read_eq finish.position []
    rw [List.append_nil] at hread
    rw [hread] at h
    rcases hend.read_nil with ⟨es, hes⟩ | ⟨fault, hunfinished, hfails⟩
    · cases (hes _).symm.trans h
    · cases (hfails _).symm.trans h
      exact ⟨body tokens, finish, fault, rfl, ⟨behind, hvector⟩, hkinds, hend.viable,
        .inr ⟨isFinish_iff.1 hmark, hend.ofTokens_ne_ok hopen hfails, hunfinished⟩⟩
  · rw [List.nil_append] at hus
    have hus' : ∀ t ∈ us, t ∈ body tokens := fun t ht => hts ▸ List.mem_append_left _ ht
    rw [hts, hus.read_eq, hk.2] at h
    cases h
    refine ⟨us, k, _, rfl, ⟨⟨vs ++ finish :: behind, ?_⟩, fun t ht => hkinds t (hus' t ht),
      hus.viable, .inl ⟨hk.1, hus.not_viable (fun t ht => hopen t (hus' t ht)) hk, rfl⟩⟩⟩
    rw [hvector, hts]
    simp

/-- A quote mark without an expression inside brackets: the bracket behind it is what is wrong. An
    open list behind a quote mark, without an end mark: what is wrong is the end, at the position of
    the last token. -/
theorem ofTokens_fails_at_first_quote :
    let place (kind : Token.Kind) (lexeme : String) (column : Nat) : Token :=
      ⟨kind, lexeme, ⟨0, column⟩⟩
    let closed := [place .leftBracket "(" 0, place .quote "'" 1, place .rightBracket ")" 2,
      place .rightBracket ")" 3]
    let cutOff := [place .quote "'" 0, place .leftBracket "(" 1, place .symbol "a" 2]
    (body closed ≠ [] ∧ ofTokens closed = .error (.unreadable ⟨0, 2⟩ .unexpectedClose) ∧
      ∃ before k fault, Error.unreadable ⟨0, 2⟩ .unexpectedClose = .unreadable k.position fault ∧
        FailsAt closed before k fault) ∧
    (body cutOff ≠ [] ∧ ofTokens cutOff = .error (.unreadable ⟨0, 2⟩ .unclosedList) ∧
      ∃ before k fault, Error.unreadable ⟨0, 2⟩ .unclosedList = .unreadable k.position fault ∧
        FailsAt cutOff before k fault) := by
  intro place closed cutOff
  have hclosed : body closed ≠ [] := List.cons_ne_nil _ _
  have hcutOff : body cutOff ≠ [] := List.cons_ne_nil _ _
  exact ⟨⟨hclosed, rfl, ofTokens_fails_at_first hclosed rfl⟩,
    hcutOff, rfl, ofTokens_fails_at_first hcutOff rfl⟩

end HostedLisp.Program
