import HostedLisp.Proofs.Evaluation.Adequacy
import HostedLisp.Proofs.Evaluation.Steps
import HostedLisp.Proofs.Sessions.Splitting
import HostedLisp.Proofs.Sessions.WellFormed

/-!
# Programs without procedures

Whatever goes on for ever applies procedures: all else that evaluation does leads from an expression
to parts of it. Procedures come from `lambda` only, so where none is bound and the keyword does not
occur, every evaluation ends. The depth of an expression is fuel enough for it.

* `Expression.LambdaFree`, `Expression.ProcedureFree`, `Store.ProcedureFree` -- no procedure is made,
  occurs, is bound;
* `Expression.height` -- how deep an expression is nested;
* `Ends` -- a computation is finished and has made no procedure;
* `ends_turn` -- a turn ends or goes on with a part of the expression, if the evaluator ends on
  the parts;
* `ends_eval` -- so every evaluation ends, by induction on the height;
* `lambdaFree_terminates` -- **programs without lambda always finish**.
-/

namespace HostedLisp

/-! ## 1. Expressions without procedures -/

namespace Expression

variable {ι : Type}

/-- No procedure occurs, at any depth. -/
def ProcedureFree : Expression ι → Prop
  | pair _ first rest => first.ProcedureFree ∧ rest.ProcedureFree
  | procedure _ => False
  | _ => True

/-- Neither a procedure nor the keyword that makes one occurs, at any depth. -/
def LambdaFree : Expression ι → Prop
  | pair _ first rest => first.LambdaFree ∧ rest.LambdaFree
  | symbol x => x ≠ Keyword.lambda.name
  | procedure _ => False
  | _ => True

/-- How deep an expression is nested, along both fields of its pairs. -/
def height : Expression ι → Nat
  | pair _ first rest => max first.height rest.height + 1
  | _ => 1

theorem LambdaFree.procedureFree {e : Expression ι} (h : e.LambdaFree) : e.ProcedureFree := by
  induction e with
  | pair c a b iha ihb => exact ⟨iha h.1, ihb h.2⟩
  | procedure id => exact h
  | _ => trivial

theorem height_pos (e : Expression ι) : 0 < e.height := by
  cases e with
  | pair => exact Nat.succ_pos _
  | _ => exact Nat.one_pos

/-- An expression that makes no procedure, and is nested at most `n` deep. -/
def Shallow (n : Nat) (e : Expression ι) : Prop := e.LambdaFree ∧ e.height ≤ n

section Shallow

variable {n : Nat}

/-- The fields of a pair are less deep than the pair. -/
theorem Shallow.fields {c : ι} {a b : Expression ι} (h : Shallow (n + 1) (.pair c a b)) :
    Shallow n a ∧ Shallow n b := by
  obtain ⟨⟨ha, hb⟩, hle⟩ := h
  rw [height] at hle
  exact ⟨⟨ha, by omega⟩, hb, by omega⟩

theorem Shallow.parts {c : ι} {a b : Expression ι} (h : Shallow n (.pair c a b)) :
    Shallow n a ∧ Shallow n b :=
  Shallow.fields ⟨h.1, Nat.le_succ_of_le h.2⟩

/-- Marking pairs with cells changes neither. -/
theorem Shallow.label {e : Datum} (h : e.Shallow n) (next : Nat) : (e.label next).1.Shallow n := by
  induction e generalizing n next with
  | pair c a b iha ihb =>
    obtain ⟨m, rfl⟩ : ∃ m, n = m + 1 := ⟨n - 1, by have := h.2; have := height_pos (pair c a b); omega⟩
    obtain ⟨ha, hb⟩ := h.fields
    have ha' := iha ha (next + 1)
    have hb' := ihb hb (a.label (next + 1)).2
    refine ⟨⟨ha'.1, hb'.1⟩, ?_⟩
    exact Nat.succ_le_succ (Nat.max_le.2 ⟨ha'.2, hb'.2⟩)
  | _ => exact h

end Shallow

/-- What is sound without procedures has none. -/
theorem Sound.procedureFree {e : Expression ι} (h : e.Sound 0) : e.ProcedureFree := by
  induction e with
  | pair c a b iha ihb => exact ⟨iha h.1.2, ihb h.2.2⟩
  | procedure id => exact Nat.not_lt_zero id h
  | _ => trivial

/-- What is built from values without procedures has none. -/
theorem procedureFree_of_builtFrom {given : List Value} {v : Value}
    (hgiven : ∀ u ∈ given, u.ProcedureFree) (h : BuiltFrom given v) : v.ProcedureFree := by
  induction h with
  | given hu => exact hgiven _ hu
  | @plain v hplain =>
    cases v with
    | pair | procedure => cases hplain
    | _ => trivial
  | first _ ih => exact ih.1
  | rest _ ih => exact ih.2
  | pair c _ _ _ _ iha ihb => exact ⟨iha, ihb⟩

end Expression

/-- Forms of expressions without lambda make no procedure. -/
theorem Form.read_ne_lambda {operator : Value} {operands : List Value} (h : operator.LambdaFree)
    (parameters body : List Value) : read operator operands ≠ .ok (.lambda parameters body) := by
  intro hread
  unfold read at hread
  split at hread
  · rename_i k hk
    cases k with
    | lambda =>
      rw [Eval.eq_symbol_of_keyword? hk] at h
      exact h rfl
    | quote | define | assign | branch | sequence | scope =>
      simp only [readSpecial] at hread
      repeat' split at hread
      all_goals cases hread
  · cases hread

/-! ## 2. Stores without procedures -/

namespace Store

variable {s : Store}

/-- No procedure occurs in a value that is bound. -/
def ProcedureFree (s : Store) : Prop := ∀ f, ∀ b ∈ s.bindingsOf f, b.2.ProcedureFree

theorem ProcedureFree.set (h : s.ProcedureFree) (f : Nat) (x : String) {v : Value}
    (hv : v.ProcedureFree) : (s.set f x v).ProcedureFree := by
  intro g b hb
  rcases mem_bindingsOf_set hb with rfl | hb
  · exact hv
  · exact h g b hb

theorem ProcedureFree.newFrame (h : s.ProcedureFree) (parent : Option Nat) {bindings : Bindings}
    (hb : ∀ b ∈ bindings, b.2.ProcedureFree) : (s.newFrame parent bindings).2.ProcedureFree := by
  intro g b hmem
  rw [bindingsOf_newFrame] at hmem
  split at hmem
  · exact hb b hmem
  · exact h g b hmem

end Store

namespace Eval

open Expression (Shallow)

/-! ## 3. Computations that end -/

/-- The computation is finished; no procedure is bound in the store that it leaves, and a value that
    it comes to meets `P`. -/
structure Ends {α : Type} (P : α → Prop) (r : Result α) : Prop where
  finished : Finished r
  store : r.2.ProcedureFree
  value : ∀ a, r.1 = .value a → P a

section Ends

variable {α β : Type} {P : α → Prop} {Q : β → Prop} {s : Store}

theorem ends_value {a : α} (hs : s.ProcedureFree) (h : P a) : Ends P (.value a, s) := by
  refine ⟨nofun, hs, fun b hb => ?_⟩
  cases hb
  exact h

theorem ends_failure {err : Error} (hs : s.ProcedureFree) : Ends P (.failure err, s) :=
  ⟨nofun, hs, nofun⟩

theorem ends_settled {x : Except Error α} (hs : s.ProcedureFree) (h : ∀ a, x = .ok a → P a) :
    Ends P (settled s x) := by
  cases x with
  | error err => exact ends_failure hs
  | ok a => exact ends_value hs (h a rfl)

theorem ends_andThen {r : Result α} {next : α → Store → Result β} (hr : Ends P r)
    (hn : ∀ a s, s.ProcedureFree → P a → Ends Q (next a s)) : Ends Q (andThen r next) := by
  obtain ⟨outcome, s₁⟩ := r
  cases outcome with
  | value a => exact hn a s₁ hr.store (hr.value a rfl)
  | failure err => exact ends_failure hr.store
  | unfinished => exact absurd rfl hr.finished

/-- What changes the effects only, and comes to values built from given ones. -/
theorem ends_perform {act : Effects → Except Error Value × Effects} {given : List Value}
    (hs : s.ProcedureFree) (hgiven : ∀ u ∈ given, u.ProcedureFree)
    (hact : ∀ v w, act s.effects = (.ok v, w) → BuiltFrom given v) :
    Ends Expression.ProcedureFree (perform s act) := by
  rw [perform_eq]
  refine ends_settled hs fun v hv => ?_
  exact Expression.procedureFree_of_builtFrom hgiven (hact v (act s.effects).2 (by rw [← hv]))

end Ends

/-- The evaluator ends on all expressions that make no procedure and are at most `n` deep. -/
def EndsOn (n : Nat) (ev : Evaluator) : Prop :=
  ∀ f e s, s.ProcedureFree → Shallow n e → Ends Expression.ProcedureFree (ev f e s)

section Several

variable {n f : Nat} {ev : Evaluator} {s : Store}

theorem ends_evalEach (hev : EndsOn n ev) {es : List Value} (hs : s.ProcedureFree)
    (hes : ∀ e ∈ es, Shallow n e) :
    Ends (fun vs => ∀ v ∈ vs, v.ProcedureFree) (evalEach (ev f) es s) := by
  induction es generalizing s with
  | nil => exact ends_value hs nofun
  | cons e es ih =>
    obtain ⟨he, hes⟩ := List.forall_mem_cons.1 hes
    refine ends_andThen (hev f e s hs he) fun v s₁ hs₁ hv => ?_
    refine ends_andThen (ih hs₁ hes) fun vs s₂ hs₂ hvs => ?_
    exact ends_value hs₂ (List.forall_mem_cons.2 ⟨hv, hvs⟩)

/-- The last expression of a sequence is one of its expressions. -/
theorem ends_evalSequence (hev : EndsOn n ev) {es : List Value} (hs : s.ProcedureFree)
    (hes : ∀ e ∈ es, Shallow n e) : Ends (Shallow n) (evalSequence (ev f) es s) := by
  induction es generalizing s with
  | nil => exact ends_failure hs
  | cons e es ih =>
    obtain ⟨he, hes⟩ := List.forall_mem_cons.1 hes
    cases es with
    | nil => exact ends_value hs he
    | cons e' es => exact ends_andThen (hev f e s hs he) fun v s₁ hs₁ _ => ih hs₁ hes

theorem ends_evalLocals (hev : EndsOn n ev) {bs : List Value} (hs : s.ProcedureFree)
    (hbs : ∀ b ∈ bs, Shallow n b) :
    Ends (fun locals => ∀ p ∈ locals, p.2.ProcedureFree) (evalLocals (ev f) bs s) := by
  induction bs generalizing s with
  | nil => exact ends_value hs nofun
  | cons b bs ih =>
    obtain ⟨hb, hbs⟩ := List.forall_mem_cons.1 hbs
    have hread : Ends (fun p => Shallow n p.2) (settled s (Form.readLocal b)) :=
      ends_settled hs fun p hp =>
        Expression.forall_items Shallow.parts hb p.2 (Form.mem_of_readLocal hp)
    refine ends_andThen hread fun p s₁ hs₁ hp => ?_
    refine ends_andThen (hev f p.2 s₁ hs₁ hp) fun v s₂ hs₂ hv => ?_
    refine ends_andThen (ih hs₂ hbs) fun rest s₃ hs₃ hrest => ?_
    exact ends_value hs₃ (List.forall_mem_cons.2 ⟨hv, hrest⟩)

end Several

/-! ## 4. Turns -/

/-- The turn has ended, or the loop goes on with an expression that is at most `n` deep. -/
def TurnEnds (n : Nat) : Turn → Prop
  | .ended r => Ends Expression.ProcedureFree r
  | .onward _ e s => s.ProcedureFree ∧ Shallow n e

section Turns

variable {hosts : Host.Table} {n f : Nat} {ev : Evaluator} {s : Store}

theorem turnEnds_after {α : Type} {P : α → Prop} {r : Result α} {next : α → Store → Turn}
    (hr : Ends P r) (hn : ∀ a s, s.ProcedureFree → P a → TurnEnds n (next a s)) :
    TurnEnds n (.after r next) := by
  obtain ⟨outcome, s₁⟩ := r
  cases outcome with
  | value a => exact hn a s₁ hr.store (hr.value a rfl)
  | failure err => exact ends_failure hr.store
  | unfinished => exact absurd rfl hr.finished

theorem ends_bodyTurn (hev : EndsOn n ev) {body : List Value} (hs : s.ProcedureFree)
    (hbody : ∀ e ∈ body, Shallow n e) : TurnEnds n (bodyTurn ev f body s) :=
  turnEnds_after (ends_evalSequence hev hs hbody) fun _ _ hs₁ hlast => ⟨hs₁, hlast⟩

/-- **Without procedures an application ends**: it calls a host function or makes a list. -/
theorem ends_applyTurn (hhosts : ∀ h ∈ hosts, h.Builds) (operator : Value) {callee : Value}
    {args : List Value} (hs : s.ProcedureFree) (hc : callee.ProcedureFree)
    (hargs : ∀ v ∈ args, v.ProcedureFree) :
    TurnEnds n (applyTurn hosts ev operator callee args s) := by
  have hdata : TurnEnds n (.ended (dataList callee args s)) :=
    ends_perform hs (List.forall_mem_cons.2 ⟨hc, hargs⟩) fun _ _ => Effects.builtFrom_of_list
  cases callee with
  | procedure id => exact hc.elim
  | hostFunction id name =>
    simp only [applyTurn]
    cases hh : hosts[id]? with
    | none => exact hdata
    | some h =>
      simp only
      split
      · exact hdata
      · refine ends_perform hs hargs fun v w hv => ?_
        unfold HostFunction.call at hv
        split at hv
        · cases hv
        · exact hhosts h (Array.mem_of_getElem? hh) _ _ _ _ hv
  | _ => exact hdata

theorem ends_formTurn (hhosts : ∀ h ∈ hosts, h.Builds) (hev : EndsOn n ev) {form : Form}
    (hs : s.ProcedureFree) (hform : ∀ q ∈ form.parts, Shallow n q)
    (hlambda : ∀ parameters body, form ≠ .lambda parameters body) :
    TurnEnds n (formTurn hosts ev f form s) := by
  have hset : ∀ x e, Shallow n e → Ends Expression.ProcedureFree
      (andThen (ev f e s) fun v s₁ => (.value (.unspecified : Value), s₁.set f x v)) := by
    intro x e he
    refine ends_andThen (hev f e s hs he) fun v s₁ hs₁ hv => ?_
    exact ends_value (hs₁.set f x hv) trivial
  cases form with
  | constant e => exact ends_value hs (hform e List.mem_cons_self).1.procedureFree
  | define x e => exact hset x e (hform e List.mem_cons_self)
  | assign x e =>
    simp only [formTurn]
    split
    · exact hset x e (hform e List.mem_cons_self)
    · exact ends_failure hs
  | lambda parameters body => exact absurd rfl (hlambda parameters body)
  | branch test consequent alternative =>
    obtain ⟨htest, hrest⟩ := List.forall_mem_cons.1 hform
    obtain ⟨hcon, halt⟩ := List.forall_mem_cons.1 hrest
    refine turnEnds_after (hev f test s hs htest) fun v s₁ hs₁ _ => ?_
    split
    · exact ⟨hs₁, hcon⟩
    · split
      · exact ⟨hs₁, halt _ List.mem_cons_self⟩
      · exact ends_value hs₁ trivial
  | sequence body =>
    simp only [formTurn]
    split
    · exact ends_value hs trivial
    · exact ends_bodyTurn hev hs hform
  | scope bindings body =>
    obtain ⟨hbs, hbody⟩ := List.forall_mem_append.1 hform
    refine turnEnds_after (ends_evalLocals hev hs hbs) fun locals s₁ hs₁ hlocals => ?_
    refine ends_bodyTurn hev (hs₁.newFrame (some f) fun b hb => ?_) hbody
    rcases Bindings.mem_setAll hb with hb | hb
    · exact hlocals b hb
    · cases hb
  | application operator operands =>
    obtain ⟨ho, hos⟩ := List.forall_mem_cons.1 hform
    refine turnEnds_after (hev f operator s hs ho) fun callee s₁ hs₁ hc => ?_
    refine turnEnds_after (ends_evalEach hev hs₁ hos) fun args s₂ hs₂ hargs => ?_
    exact ends_applyTurn hhosts operator hs₂ hc hargs

/-- **A turn ends or goes on with a part of the expression**, if the evaluator ends on the parts. -/
theorem ends_turn (hhosts : ∀ h ∈ hosts, h.Builds) (hev : EndsOn n ev) {e : Value}
    (hs : s.ProcedureFree) (he : Shallow (n + 1) e) : TurnEnds n (turn hosts ev f e s) := by
  cases e with
  | symbol x =>
    refine ends_settled hs fun v hv => ?_
    unfold evalSymbol at hv
    split at hv
    · cases hv
    · split at hv
      · rename_i hget
        cases hv
        obtain ⟨g, -, hb⟩ := Store.exists_mem_of_get? hget
        exact hs g _ hb
      · cases hv
  | pair c operator rest =>
    obtain ⟨ho, hrest⟩ := he.fields
    simp only [turn]
    cases hread : Form.read operator rest.items with
    | error err => exact ends_failure hs
    | ok form =>
      refine ends_formTurn hhosts hev hs (Form.forall_parts_of_read Shallow.parts ho
        (Expression.forall_items Shallow.parts hrest) hread) fun parameters body hform => ?_
      exact Form.read_ne_lambda ho.1 parameters body (hform ▸ hread)
  | hostFunction | unspecified => exact ends_failure hs
  | number | string | boolean | emptyList | procedure =>
    exact ends_value hs he.1.procedureFree

/-- **Every evaluation ends** with as much fuel as the expression is deep. -/
theorem ends_eval (hhosts : ∀ h ∈ hosts, h.Builds) (fuel : Nat) : EndsOn fuel (eval hosts fuel) := by
  induction fuel with
  | zero =>
    intro f e s _ he
    exact absurd he.2 (Nat.not_le.2 e.height_pos)
  | succ fuel ih =>
    intro f e s hs he
    have hturn : TurnEnds fuel (turn hosts (eval hosts fuel) f e s) := ends_turn hhosts ih hs he
    rw [eval_succ]
    cases ht : turn hosts (eval hosts fuel) f e s with
    | ended r =>
      rw [ht] at hturn
      exact hturn
    | onward g e' s₁ =>
      rw [ht] at hturn
      exact ih g e' s₁ hturn.1 hturn.2

end Turns

end Eval

/-! ## 5. Programs -/

namespace Program

/-- The token is the keyword that makes procedures. -/
def IsLambda (t : Token) : Prop := t.kind = .symbol ∧ t.lexeme = Keyword.lambda.name

/-- The text is not cut into tokens, or none of them makes procedures. -/
def LacksLambda (source : String) : Prop :=
  ∀ tokens, Token.scan source = .ok tokens → ∀ t ∈ tokens, ¬IsLambda t

theorem lambdaFree_ofItems {es : List Datum} (h : ∀ e ∈ es, e.LambdaFree) :
    (Expression.ofItems es).LambdaFree := by
  induction es with
  | nil => trivial
  | cons e es ih =>
    obtain ⟨he, hes⟩ := List.forall_mem_cons.1 h
    exact ⟨he, ih hes⟩

theorem Denotes.lambdaFree {t : Token} {e : Datum} (h : Denotes t e) (ht : ¬IsLambda t) :
    e.LambdaFree := by
  cases h with
  | symbol hkind => exact fun hname => ht ⟨hkind, hname⟩
  | _ => trivial

mutual

theorem Tree.lambdaFree_datum : ∀ T : Tree, (∀ t ∈ T.tokens, ¬IsLambda t) → T.datum.LambdaFree
  | .atom _ _ hdenotes, h => hdenotes.lambdaFree (h _ List.mem_cons_self)
  | .quote _ _ inner, h => by
    have hinner := inner.lambdaFree_datum (List.forall_mem_cons.1 h).2
    have hkeyword : (Expression.symbol Keyword.quote.name : Datum).LambdaFree := by
      show Keyword.quote.name ≠ Keyword.lambda.name
      decide
    exact lambdaFree_ofItems (List.forall_mem_cons.2 ⟨hkeyword,
      List.forall_mem_cons.2 ⟨hinner, nofun⟩⟩)
  | .list _ _ items _ _, h => by
    obtain ⟨hitems, -⟩ := List.forall_mem_append.1 (List.forall_mem_cons.1 h).2
    exact lambdaFree_ofItems (items.lambdaFree_data hitems)

theorem Forest.lambdaFree_data : ∀ F : Forest, (∀ t ∈ F.tokens, ¬IsLambda t) →
    ∀ e ∈ F.data, e.LambdaFree
  | .nil, _ => nofun
  | .cons first rest, h => by
    obtain ⟨hfirst, hrest⟩ := List.forall_mem_append.1 h
    exact List.forall_mem_cons.2 ⟨first.lambdaFree_datum hfirst, rest.lambdaFree_data hrest⟩

end

/-- **Expressions that are read without the keyword make no procedure.** -/
theorem lambdaFree_of_parse {source : String} {program : List Datum}
    (h : parse source = .ok program) (hsource : LacksLambda source) :
    ∀ e ∈ program, e.LambdaFree := by
  obtain ⟨-, ps, F, hps, hF, rfl⟩ := exists_forest_of_parse h
  refine F.lambdaFree_data fun t ht => ?_
  have hscan := Token.scan_eq_ok_iff.2 ⟨ps, hps, rfl⟩
  rw [hF] at ht
  exact hsource _ hscan t (List.mem_append_left _ ht)

end Program

namespace Session

open Eval

variable {hosts : Host.Table} {s : Store}

theorem ends_inTurn {α : Type} {step : α → Store → Result Value} {as : List α} {last : Value}
    (hlast : last.ProcedureFree) (hs : s.ProcedureFree)
    (hstep : ∀ a ∈ as, ∀ s, s.ProcedureFree → Ends Expression.ProcedureFree (step a s)) :
    Ends Expression.ProcedureFree (inTurn step last as s) := by
  induction as generalizing last s with
  | nil => exact ends_value hs hlast
  | cons a as ih =>
    obtain ⟨ha, has⟩ := List.forall_mem_cons.1 hstep
    exact ends_andThen (ha s hs) fun v s₁ hs₁ hv => ih hv hs₁ has

theorem ends_runIn (hhosts : ∀ h ∈ hosts, h.Builds) {fuel : Nat} {program : List Datum}
    (hs : s.ProcedureFree) (hp : ∀ e ∈ program, e.Shallow fuel) :
    Ends Expression.ProcedureFree (runIn hosts fuel program s) :=
  ends_inTurn trivial hs fun e he _ hs₁ =>
    ends_eval hhosts fuel globalFrame _ _ hs₁ ((hp e he).label _)

/-- Some height is enough for all expressions of a program. -/
theorem exists_shallow {program : List Datum} (h : ∀ e ∈ program, e.LambdaFree) :
    ∃ n, ∀ e ∈ program, e.Shallow n := by
  induction program with
  | nil => exact ⟨0, nofun⟩
  | cons e es ih =>
    obtain ⟨he, hes⟩ := List.forall_mem_cons.1 h
    obtain ⟨n, hn⟩ := ih hes
    refine ⟨max e.height n, List.forall_mem_cons.2 ⟨⟨he, Nat.le_max_left _ _⟩, fun q hq => ?_⟩⟩
    exact ⟨(hn q hq).1, Nat.le_trans (hn q hq).2 (Nat.le_max_right _ _)⟩

theorem ends_runSource (hhosts : ∀ h ∈ hosts, h.Builds) {source : String} (hs : s.ProcedureFree)
    (hsource : Program.LacksLambda source) :
    ∃ fuel, Ends Expression.ProcedureFree (runSource hosts fuel source s) := by
  unfold runSource
  cases hparse : Program.parse source with
  | error err => exact ⟨0, ends_failure hs⟩
  | ok program =>
    obtain ⟨n, hn⟩ := exists_shallow (Program.lambdaFree_of_parse hparse hsource)
    exact ⟨n, ends_runIn hhosts hs hn⟩

end Session

namespace Eval

/-- What ends comes to a value or a failure. -/
theorem Ends.exists_settled {α : Type} {P : α → Prop} {r : Result α} (h : Ends P r) :
    ∃ x s', r = settled s' x ∧ s'.ProcedureFree ∧ ∀ a, x = .ok a → P a := by
  obtain ⟨outcome, s'⟩ := r
  cases outcome with
  | value a =>
    refine ⟨.ok a, s', rfl, h.store, fun b hb => ?_⟩
    cases hb
    exact h.value a rfl
  | failure err => exact ⟨.error err, s', rfl, h.store, nofun⟩
  | unfinished => exact absurd rfl h.finished

end Eval

namespace Session

open Eval

/-- A session starts with host functions only. -/
theorem procedureFree_start (registry : Registry) : (start registry).store.ProcedureFree :=
  fun f b hb => ((wellFormed_start registry).bound f b hb).procedureFree

/-- **Programs without lambda always finish.** With the standard host functions, and a store in which
    no procedure occurs in a value that is bound,

    * every evaluation, in any frame, of an expression in which neither a procedure nor the lambda
      keyword occurs comes to a value or a failure, with any fuel from the height of the expression
      on; no procedure is bound in the store that it leaves, and none occurs in the value;
    * so does every run of a text without a lambda token, in particular in a session that has just
      started. -/
theorem lambdaFree_terminates {hosts : Host.Table} (hhosts : ∀ h ∈ hosts, h ∈ Host.standard) :
    (∀ f e s, s.ProcedureFree → e.LambdaFree → ∃ r s',
      (∀ fuel, e.height ≤ fuel → eval hosts fuel f e s = settled s' r) ∧ s'.ProcedureFree ∧
        ∀ v, r = .ok v → v.ProcedureFree) ∧
    (∀ source s, s.ProcedureFree → Program.LacksLambda source → ∃ r s',
      Returns hosts source s r s' ∧ s'.ProcedureFree) ∧
    ∀ source, Program.LacksLambda source → ∃ r s',
      Returns standard.hosts source standard.store r s' := by
  have hbuilds : ∀ h ∈ hosts, h.Builds := fun h hh => Host.builds_of_mem_standard (hhosts h hh)
  have hstandard : ∀ h ∈ standard.hosts, h.Builds := fun h hh =>
    Host.builds_of_mem_standard (mem_standard_of_mem_hosts hh)
  refine ⟨fun f e s hs he => ?_, fun source s hs hsource => ?_, fun source hsource => ?_⟩
  · have hends := ends_eval hbuilds e.height f e s hs ⟨he, Nat.le_refl _⟩
    obtain ⟨r, s', hr, hs', hv⟩ := hends.exists_settled
    exact ⟨r, s', fun fuel hle => (eval_of_le hle hends.finished).trans hr, hs', hv⟩
  · obtain ⟨fuel, hends⟩ := ends_runSource hbuilds hs hsource
    obtain ⟨r, s', hr, hs', -⟩ := hends.exists_settled
    exact ⟨r, s', ⟨fuel, hr⟩, hs'⟩
  · obtain ⟨fuel, hends⟩ := ends_runSource hstandard (procedureFree_start _) hsource
    obtain ⟨r, s', hr, -, -⟩ := hends.exists_settled
    exact ⟨r, s', fuel, hr⟩

/-- A scope, a condition and a definition, with a name that is not bound in the branch that is not
    taken; and a text that calls a host function. -/
theorem lambdaFree_terminates_scope :
    let e : Value := ((.ofItems [.symbol "let", .ofItems [.ofItems [.symbol "x", .string "a"]],
      .ofItems [.symbol "if", .symbol "x", .ofItems [.symbol "define", .symbol "y", .symbol "x"],
        .ofItems [.symbol "z"]]] : Datum).label 0).1
    let source := "(car '(a))"
    (standard.store.ProcedureFree ∧ e.LambdaFree ∧ ∃ r s',
      ∀ fuel, 10 ≤ fuel → eval standard.hosts fuel globalFrame e standard.store = settled s' r) ∧
    Program.LacksLambda source ∧ ∃ r s', Returns standard.hosts source standard.store r s' := by
  intro e source
  obtain ⟨heval, -, hrun⟩ := lambdaFree_terminates fun _ => mem_standard_of_mem_hosts
  have hs : standard.store.ProcedureFree := procedureFree_start _
  have he : e.LambdaFree := by
    simp [e, Expression.ofItems, Expression.label, Expression.LambdaFree, Keyword.name]
  have hheight : e.height = 10 := by decide
  have hsource : Program.LacksLambda source := by
    intro tokens htokens
    have hscan : Token.scan source = .ok [⟨.leftBracket, "(", ⟨0, 0⟩⟩, ⟨.symbol, "car", ⟨0, 1⟩⟩,
        ⟨.quote, "'", ⟨0, 5⟩⟩, ⟨.leftBracket, "(", ⟨0, 6⟩⟩, ⟨.symbol, "a", ⟨0, 7⟩⟩,
        ⟨.rightBracket, ")", ⟨0, 8⟩⟩, ⟨.rightBracket, ")", ⟨0, 9⟩⟩, ⟨.finish, "", ⟨0, 10⟩⟩] := by
      cbv
    cases hscan.symm.trans htokens
    simp [Program.IsLambda, Keyword.name]
  obtain ⟨r, s', hr, -, -⟩ := heval globalFrame e _ hs he
  rw [hheight] at hr
  exact ⟨⟨hs, he, r, s', hr⟩, hsource, hrun source hsource⟩

end Session

end HostedLisp
