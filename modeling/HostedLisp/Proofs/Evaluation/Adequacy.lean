import HostedLisp.Eval.Fuel
import HostedLisp.Proofs.Evaluation.Rules

/-!
# The evaluator and its rules agree

The loop with enough fuel comes to a result exactly if the rules derive it:

* `evaluates_of_eval` -- what the loop returns has a derivation, by induction on the fuel; each
  turn of the loop is the lowest rule of one;
* `eval_of_evaluates` -- what is derived is returned with enough fuel, by induction on the
  derivation; more fuel does no harm, so the premises of a rule agree on how much is enough.

In between stand the equations of one turn, one for each shape of an expression, which both
directions use.
-/

namespace HostedLisp.Eval

/-! ## 1. Results -/

@[simp] theorem settled_ok {α : Type} (s : Store) (a : α) : settled s (.ok a) = (.value a, s) := rfl

@[simp] theorem settled_error {α : Type} (s : Store) (e : Error) :
    settled s (.error e : Except Error α) = (.failure e, s) := rfl

@[simp] theorem andThen_value {α β : Type} (a : α) (s : Store) (next : α → Store → Result β) :
    andThen (.value a, s) next = next a s := rfl

@[simp] theorem andThen_failure {α β : Type} (e : Error) (s : Store)
    (next : α → Store → Result β) : andThen (.failure e, s) next = (.failure e, s) := rfl

theorem unfinished_ne_settled {α : Type} (s s' : Store) (r : Except Error α) :
    ((.unfinished, s) : Result α) ≠ settled s' r := by
  cases r <;> simp

theorem settled_inj {α : Type} {s s' : Store} {r r' : Except Error α}
    (h : settled s r = settled s' r') : r = r' ∧ s = s' := by
  cases r <;> cases r' <;> simp_all

theorem value_eq_settled {α : Type} {a : α} {s s' : Store} {r : Except Error α}
    (h : ((.value a, s) : Result α) = settled s' r) : .ok a = r ∧ s = s' :=
  settled_inj h

theorem failure_eq_settled {α : Type} {e : Error} {s s' : Store} {r : Except Error α}
    (h : ((.failure e, s) : Result α) = settled s' r) : .error e = r ∧ s = s' :=
  settled_inj h

/-- **What goes on after a result**: the value that it goes on with, or the failure that ends it. -/
theorem andThen_eq_settled {α β : Type} {r : Result α} {next : α → Store → Result β} {s' : Store}
    {q : Except Error β} (h : andThen r next = settled s' q) :
    (∃ a s₁, r = settled s₁ (.ok a) ∧ next a s₁ = settled s' q) ∨
      ∃ e, r = settled s' (.error e) ∧ q = .error e := by
  obtain ⟨outcome, s⟩ := r
  cases outcome with
  | value a => exact .inl ⟨a, s, rfl, h⟩
  | failure e =>
    obtain ⟨rfl, rfl⟩ := failure_eq_settled h
    exact .inr ⟨e, rfl, rfl⟩
  | unfinished => exact absurd h (unfinished_ne_settled s s' q)

namespace Turn

@[simp] theorem finish_ended (ev : Evaluator) (r : Result Value) : (ended r).finish ev = r := rfl

@[simp] theorem finish_onward (ev : Evaluator) (f : Nat) (e : Value) (s : Store) :
    (onward f e s).finish ev = ev f e s := rfl

/-- Goes on after a result and then finishes the turn: the order does not matter. -/
@[simp] theorem finish_after {α : Type} (ev : Evaluator) (r : Result α)
    (next : α → Store → Turn) :
    (after r next).finish ev = andThen r fun a s => (next a s).finish ev := by
  obtain ⟨outcome, s⟩ := r
  cases outcome <;> rfl

end Turn

/-! ## 2. The equations of a turn -/

theorem eq_symbol_of_keyword? {e : Value} {k : Keyword} (h : e.keyword? = some k) :
    e = .symbol k.name := by
  cases e with
  | symbol x => rw [Keyword.name_of_ofName? h]
  | _ => cases h

/-- A pair is the special form of a keyword, or a combination. -/
theorem isForm_or_isCombination (cell : Nat) (operator rest : Value) :
    (∃ k, IsForm k rest.items (.pair cell operator rest)) ∨
      IsCombination operator rest.items (.pair cell operator rest) := by
  cases hk : operator.keyword? with
  | none => exact .inr ⟨cell, rest, rfl, hk, rfl⟩
  | some k =>
    rw [eq_symbol_of_keyword? hk]
    exact .inl ⟨k, cell, rest, rfl, rfl⟩

section Equations

variable {hosts : Host.Table} {ev : Evaluator} {f : Nat} {s : Store} {e : Value}

/-- A special form that is well formed as far as it can be told without evaluating it. -/
theorem turn_of_isForm {k : Keyword} {operands : List Value} {form : Form}
    (he : IsForm k operands e) (hr : Form.readSpecial k operands = .ok form) :
    turn hosts ev f e s = formTurn hosts ev f form s := by
  obtain ⟨cell, rest, rfl, rfl⟩ := he
  simp only [turn, Form.read, Expression.keyword?, Keyword.ofName?_name, hr]

/-- A special form that is not. -/
theorem turn_of_malformed {k : Keyword} {operands : List Value} {err : Error}
    (he : IsForm k operands e) (hr : Form.readSpecial k operands = .error err) :
    turn hosts ev f e s = .ended (.failure err, s) := by
  obtain ⟨cell, rest, rfl, rfl⟩ := he
  simp only [turn, Form.read, Expression.keyword?, Keyword.ofName?_name, hr]

theorem turn_of_isCombination {operator : Value} {operands : List Value}
    (he : IsCombination operator operands e) :
    turn hosts ev f e s = formTurn hosts ev f (.application operator operands) s := by
  obtain ⟨cell, rest, rfl, hk, rfl⟩ := he
  simp only [turn, Form.read, hk]

theorem turn_of_isConstant (he : IsConstant e) : turn hosts ev f e s = .ended (.value e, s) := by
  cases e with
  | number | string | boolean | emptyList | procedure => rfl
  | _ => exact he.elim

theorem turn_of_not_isExpression (he : e.isExpression = false) :
    turn hosts ev f e s = .ended (.failure (.illegalExpression e.display), s) := by
  cases e with
  | hostFunction | unspecified => rfl
  | _ => cases he

/-- A body comes to what its last expression comes to after the others. -/
theorem finish_bodyTurn (body : List Value) :
    (bodyTurn ev f body s).finish ev
      = andThen (evalSequence (ev f) body s) fun last s => ev f last s := by
  simp [bodyTurn]

theorem applyTurn_of_host {operator callee : Value} {args : List Value} {h : HostFunction}
    (hc : hostOf? hosts callee = some h) :
    applyTurn hosts ev operator callee args s =
      if operator.isPair then .ended (dataList callee args s)
      else .ended (perform s (h.call args)) := by
  cases callee with
  | hostFunction id name =>
    simp only [hostOf?] at hc
    simp only [applyTurn, hc]
  | _ => cases hc

theorem applyTurn_of_procedure {operator callee : Value} {args : List Value} {p : Procedure}
    (hc : s.procedure? callee = some p) :
    applyTurn hosts ev operator callee args s = procedureTurn ev p args s := by
  cases callee with
  | procedure id =>
    simp only [Store.procedure?] at hc
    simp only [applyTurn, hc]
  | _ => cases hc

theorem applyTurn_of_data {operator callee : Value} {args : List Value}
    (hp : s.procedure? callee = none) (hh : hostOf? hosts callee = none) :
    applyTurn hosts ev operator callee args s = .ended (dataList callee args s) := by
  cases callee with
  | procedure id =>
    simp only [Store.procedure?] at hp
    simp only [applyTurn, hp]
  | hostFunction id name =>
    simp only [hostOf?] at hh
    simp only [applyTurn, hh]
  | _ => rfl

theorem isPair_of_isSymbol {operator : Value} (h : operator.isSymbol = true) :
    operator.isPair = false := by
  cases operator with
  | symbol => rfl
  | _ => cases h

/-- Data is whatever is no procedure and, if the operator is a symbol, no host function either. -/
theorem finish_applyTurn_of_data {operator callee : Value} {args : List Value}
    (hc : s.procedure? callee = none)
    (hs : operator.isSymbol = true → hostOf? hosts callee = none)
    (ho : operator.isPair = false → operator.isSymbol = false → hostOf? hosts callee = none) :
    (applyTurn hosts ev operator callee args s).finish ev = dataList callee args s := by
  cases hh : hostOf? hosts callee with
  | none => rw [applyTurn_of_data hc hh, Turn.finish_ended]
  | some h =>
    have hp : operator.isPair = true := by
      cases hp : operator.isPair with
      | true => rfl
      | false =>
        cases hs' : operator.isSymbol with
        | true => rw [hs hs'] at hh; cases hh
        | false => rw [ho hp hs'] at hh; cases hh
    rw [applyTurn_of_host hh, if_pos hp, Turn.finish_ended]

theorem dataList_eq (callee : Value) (args : List Value) (s : Store) :
    dataList callee args s
      = settled (s.withEffects (Effects.list (callee :: args) s.effects).2)
          (Effects.list (callee :: args) s.effects).1 :=
  perform_eq _ _

end Equations

/-! ## 3. The shapes of special forms -/

theorem readSpecial_quote {operands : List Value} (hn : operands.length ≠ 1) :
    Form.readSpecial .quote operands
      = .error (.malformed Keyword.quote.name (.operandCount 1 1 operands.length)) := by
  match operands with
  | [] | _ :: _ :: _ => rfl
  | [_] => exact absurd rfl hn

theorem readSpecial_lambda {parameters : Value} {body : List Value}
    (hp : parameters.isList = true) :
    Form.readSpecial .lambda (parameters :: body) = .ok (.lambda parameters.items body) := by
  simp only [Form.readSpecial, hp, if_true]

theorem readSpecial_parameters {parameters : Value} {body : List Value}
    (hp : parameters.isList = false) :
    Form.readSpecial .lambda (parameters :: body) = .error (.runtime .parametersNotList) := by
  simp only [Form.readSpecial, hp, Bool.false_eq_true, if_false]

theorem readSpecial_branch {test c : Value} {alternative : List Value}
    (ha : alternative.length ≤ 1) :
    Form.readSpecial .branch (test :: c :: alternative)
      = .ok (.branch test c alternative.head?) := by
  match alternative with
  | [] | [_] => rfl
  | _ :: _ :: _ =>
    simp only [List.length_cons] at ha
    omega

theorem readSpecial_branch_count {operands : List Value}
    (hn : operands.length ≠ 2 ∧ operands.length ≠ 3) :
    Form.readSpecial .branch operands
      = .error (.malformed Keyword.branch.name (.operandCount 2 3 operands.length)) := by
  match operands with
  | [] | [_] | _ :: _ :: _ :: _ :: _ => rfl
  | [_, _] => exact absurd rfl hn.1
  | [_, _, _] => exact absurd rfl hn.2

theorem readSpecial_scope {bindings b : Value} {body : List Value}
    (hl : bindings.isList = true) :
    Form.readSpecial .scope (bindings :: b :: body) = .ok (.scope bindings.items (b :: body)) := by
  simp only [Form.readSpecial, hl, if_true]

theorem readSpecial_bindings {bindings b : Value} {body : List Value}
    (hl : bindings.isList = false) :
    Form.readSpecial .scope (bindings :: b :: body)
      = .error (.malformed Keyword.scope.name (.bindingsNotList bindings.display)) := by
  simp only [Form.readSpecial, hl, Bool.false_eq_true, if_false]
  rfl

theorem readSpecial_scope_count {operands : List Value} (hn : operands.length < 2) :
    Form.readSpecial .scope operands
      = .error (.malformed Keyword.scope.name .missingBindings) := by
  match operands with
  | [] | [_] => rfl
  | _ :: _ :: _ =>
    simp only [List.length_cons] at hn
    omega

theorem readBinding_count {k : Keyword} {operands : List Value} (hn : operands.length ≠ 2) :
    Form.readBinding k operands
      = .error (.malformed k.name (.operandCount 2 2 operands.length)) := by
  match operands with
  | [] | [_] | _ :: _ :: _ :: _ => rfl
  | [_, _] => exact absurd rfl hn

theorem readBinding_target {k : Keyword} {target q : Value} (ht : target.isSymbol = false) :
    Form.readBinding k [target, q]
      = .error (.malformed k.name (.targetNotSymbol target.display)) := by
  cases target with
  | symbol => cases ht
  | _ => rfl

theorem readBinding_keyword {k k' : Keyword} {x : String} {q : Value}
    (hx : Keyword.ofName? x = some k') :
    Form.readBinding k [.symbol x, q] = .error (.keywordReference x) := by
  simp [Form.readBinding, hx]

theorem readBinding_symbol {k : Keyword} {x : String} {q : Value}
    (hx : Keyword.ofName? x = none) : Form.readBinding k [.symbol x, q] = .ok (x, q) := by
  simp [Form.readBinding, hx]

/-- What fails in the operands of `define` fails in those of `set!`, and in the same way. -/
theorem readSpecial_of_readBinding {k : Keyword} {operands : List Value} {err : Error}
    (hk : k = .define ∨ k = .assign) (h : Form.readBinding k operands = .error err) :
    Form.readSpecial k operands = .error err := by
  rcases hk with rfl | rfl <;> simp only [Form.readSpecial, h]

theorem readSpecial_define {x : String} {q : Value} (hx : Keyword.ofName? x = none) :
    Form.readSpecial .define [.symbol x, q] = .ok (.define x q) := by
  simp only [Form.readSpecial, readBinding_symbol hx]

theorem readSpecial_assign {x : String} {q : Value} (hx : Keyword.ofName? x = none) :
    Form.readSpecial .assign [.symbol x, q] = .ok (.assign x q) := by
  simp only [Form.readSpecial, readBinding_symbol hx]

theorem readLocal_symbol {b q : Value} {x : String} (hb : b.items = [.symbol x, q])
    (hx : Keyword.ofName? x = none) : Form.readLocal b = .ok (x, q) := by
  simp [Form.readLocal, hb, hx]

theorem readLocal_keyword {b q : Value} {x : String} {k : Keyword}
    (hb : b.items = [.symbol x, q]) (hx : Keyword.ofName? x = some k) :
    Form.readLocal b = .error (.keywordReference x) := by
  simp [Form.readLocal, hb, hx]

theorem readLocal_bad {b : Value} (hb : ∀ x q, b.items ≠ [.symbol x, q]) :
    Form.readLocal b = .error (.malformed Keyword.scope.name (.badBinding b.display)) := by
  unfold Form.readLocal
  split
  · rename_i x q h
    exact absurd h (hb x q)
  · rfl

/-! ## 4. Parameters -/

theorem parameterNames_map (names : List String) :
    Store.parameterNames (names.map .symbol) = .ok names := by
  induction names with
  | nil => rfl
  | cons x names ih => simp [Store.parameterNames, Expression.symbolName?, ih]

theorem parameterNames_append {names : List String} {q : Value} {after : List Value}
    (hq : q.isSymbol = false) :
    Store.parameterNames (names.map .symbol ++ q :: after)
      = .error (.runtime (.parameterNotSymbol q.display)) := by
  induction names with
  | nil => cases q <;> simp_all [Store.parameterNames, Expression.symbolName?, Expression.isSymbol]
  | cons x names ih => simp [Store.parameterNames, Expression.symbolName?, ih]

/-- Parameters are all symbols, or there is a first one that is none. -/
theorem parameters_cases (parameters : List Value) :
    (∃ names : List String, parameters = names.map .symbol) ∨
      ∃ (names : List String) (q : Value) (after : List Value),
        parameters = names.map .symbol ++ q :: after ∧ q.isSymbol = false := by
  induction parameters with
  | nil => exact .inl ⟨[], rfl⟩
  | cons v vs ih =>
    cases hv : v.isSymbol with
    | false => exact .inr ⟨[], v, vs, rfl, hv⟩
    | true =>
      cases v with
      | symbol x =>
        rcases ih with ⟨names, rfl⟩ | ⟨names, q, after, rfl, hq⟩
        · exact .inl ⟨x :: names, rfl⟩
        · exact .inr ⟨x :: names, q, after, rfl, hq⟩
      | _ => cases hv

section Binding

variable {s : Store} {p : Procedure} {args : List Value} {names : List String}

theorem bind_of_arity (hn : args.length ≠ p.parameters.length) :
    s.bind p args = .error (.procedureArity p.parameters.length args.length) := by
  simp [Store.bind, Store.argumentBindings, hn]

theorem bind_of_parameter {q : Value} {after : List Value}
    (hn : args.length = p.parameters.length)
    (hp : p.parameters = names.map .symbol ++ q :: after) (hq : q.isSymbol = false) :
    s.bind p args = .error (.runtime (.parameterNotSymbol q.display)) := by
  rw [Store.bind, Store.argumentBindings, if_pos hn, hp, parameterNames_append hq]

theorem bind_of_symbols (hn : args.length = p.parameters.length)
    (hp : p.parameters = names.map .symbol) :
    s.bind p args = .ok (s.newFrame (some p.frame) (Bindings.setAll [] (names.zip args))) := by
  rw [Store.bind, Store.argumentBindings, if_pos hn, hp, parameterNames_map]

end Binding

/-! ## 5. What the loop returns is derived -/

/-- What `ev` returns has a derivation. -/
def Sound (hosts : Host.Table) (ev : Evaluator) : Prop :=
  ∀ {f e s r s'}, ev f e s = settled s' r → Evaluates hosts s f e r s'

section Soundness

variable {hosts : Host.Table} {ev : Evaluator} {f : Nat} {e : Value} {s s' : Store}

theorem evaluatesEach_of_evalEach (hev : Sound hosts ev) {es : List Value}
    {r : Except Error (List Value)} (h : evalEach (ev f) es s = settled s' r) :
    EvaluatesEach hosts s f es r s' := by
  induction es generalizing s r with
  | nil =>
    obtain ⟨rfl, rfl⟩ := value_eq_settled h
    exact .nil
  | cons e es ih =>
    rcases andThen_eq_settled h with ⟨v, s₁, hv, h⟩ | ⟨err, he, rfl⟩
    · rcases andThen_eq_settled h with ⟨vs, s₂, hvs, h⟩ | ⟨err, hes, rfl⟩
      · obtain ⟨rfl, rfl⟩ := value_eq_settled h
        exact .cons (hev hv) (ih hvs)
      · exact .tailFails (hev hv) (ih hes)
    · exact .headFails (hev he)

/-- A binding of a `let` is a name with an expression, or fails at once. -/
theorem readLocal_cases (b : Value) :
    (∃ x q, b.items = [.symbol x, q] ∧ Keyword.ofName? x = none) ∨
      (∃ x q k, b.items = [.symbol x, q] ∧ Keyword.ofName? x = some k) ∨
      ∀ x q, b.items ≠ [.symbol x, q] := by
  by_cases hb : ∃ x q, b.items = [.symbol x, q]
  · obtain ⟨x, q, hb⟩ := hb
    cases hx : Keyword.ofName? x with
    | none => exact .inl ⟨x, q, hb, hx⟩
    | some k => exact .inr (.inl ⟨x, q, k, hb, hx⟩)
  · exact .inr (.inr fun x q h => hb ⟨x, q, h⟩)

theorem evaluatesLocals_of_evalLocals (hev : Sound hosts ev) {bs : List Value}
    {r : Except Error (List (String × Value))} (h : evalLocals (ev f) bs s = settled s' r) :
    EvaluatesLocals hosts s f bs r s' := by
  induction bs generalizing s r with
  | nil =>
    obtain ⟨rfl, rfl⟩ := value_eq_settled h
    exact .nil
  | cons b bs ih =>
    unfold evalLocals at h
    rcases readLocal_cases b with ⟨x, q, hb, hx⟩ | ⟨x, q, k, hb, hx⟩ | hb
    · rw [readLocal_symbol hb hx, settled_ok, andThen_value] at h
      rcases andThen_eq_settled h with ⟨v, s₁, hv, h⟩ | ⟨err, hq, rfl⟩
      · rcases andThen_eq_settled h with ⟨locals, s₂, hl, h⟩ | ⟨err, hl, rfl⟩
        · obtain ⟨rfl, rfl⟩ := value_eq_settled h
          exact .cons hb hx (hev hv) (ih hl)
        · exact .tailFails hb hx (hev hv) (ih hl)
      · exact .headFails hb hx (hev hq)
    · rw [readLocal_keyword hb hx, settled_error, andThen_failure] at h
      obtain ⟨rfl, rfl⟩ := failure_eq_settled h
      exact .keyword hb hx
    · rw [readLocal_bad hb, settled_error, andThen_failure] at h
      obtain ⟨rfl, rfl⟩ := failure_eq_settled h
      exact .badBinding hb

variable {r : Except Error Value}

theorem evaluatesBody_of_bodyTurn (hev : Sound hosts ev) {body : List Value}
    (h : (bodyTurn ev f body s).finish ev = settled s' r) :
    EvaluatesBody hosts s f body r s' := by
  rw [finish_bodyTurn] at h
  induction body generalizing s with
  | nil =>
    obtain ⟨rfl, rfl⟩ := failure_eq_settled h
    exact .empty
  | cons e es ih =>
    cases es with
    | nil => exact .last (hev h)
    | cons e' es =>
      -- the rest of the sequence comes under the same continuation as the whole
      rcases hv : ev f e s with ⟨_ | err | _, s₁⟩
      · simp only [evalSequence, hv, andThen_value] at h
        exact .cons (hev hv) (ih h)
      · simp only [evalSequence, hv, andThen_failure] at h
        obtain ⟨rfl, rfl⟩ := failure_eq_settled h
        exact .headFails (hev hv)
      · simp only [evalSequence, hv] at h
        exact absurd h (unfinished_ne_settled s₁ s' r)

/-- An operator that is neither a symbol nor a pair has no host function as its value. -/
theorem hostOf?_of_constant {operator callee : Value} {s₁ : Store} (hp : operator.isPair = false)
    (hs : operator.isSymbol = false)
    (h : (turn hosts ev f operator s).finish ev = settled s₁ (.ok callee)) :
    hostOf? hosts callee = none := by
  cases operator with
  | symbol => cases hs
  | pair => cases hp
  | hostFunction | unspecified => cases h
  | _ =>
    cases h
    rfl

theorem applies_of_applyTurn (hev : Sound hosts ev) {operator callee : Value} {args : List Value}
    (ho : operator.isPair = false → operator.isSymbol = false → hostOf? hosts callee = none)
    (h : (applyTurn hosts ev operator callee args s).finish ev = settled s' r) :
    Applies hosts s operator callee args r s' := by
  cases hp : s.procedure? callee with
  | some p =>
    rw [applyTurn_of_procedure hp, procedureTurn] at h
    by_cases hn : args.length = p.parameters.length
    · rcases parameters_cases p.parameters with ⟨names, hq⟩ | ⟨names, q, after, hq, hs⟩
      · rw [bind_of_symbols hn hq] at h
        exact .procedure hp hn hq (evaluatesBody_of_bodyTurn hev h)
      · rw [bind_of_parameter hn hq hs] at h
        obtain ⟨rfl, rfl⟩ := failure_eq_settled h
        exact .procedureParameter hp hn hq hs
    · rw [bind_of_arity hn] at h
      obtain ⟨rfl, rfl⟩ := failure_eq_settled h
      exact .procedureArity hp hn
  | none =>
    cases hh : hostOf? hosts callee with
    | none =>
      rw [applyTurn_of_data hp hh, Turn.finish_ended, dataList_eq] at h
      obtain ⟨rfl, rfl⟩ := settled_inj h
      exact .data hp (fun _ => hh) rfl
    | some fn =>
      rw [applyTurn_of_host hh] at h
      cases hpair : operator.isPair with
      | true =>
        rw [if_pos hpair, Turn.finish_ended, dataList_eq] at h
        obtain ⟨rfl, rfl⟩ := settled_inj h
        refine .data hp (fun hs => ?_) rfl
        cases operator with
        | pair => cases hs
        | _ => cases hpair
      | false =>
        have hs : operator.isSymbol = true := by
          cases hs : operator.isSymbol with
          | true => rfl
          | false =>
            rw [ho hpair hs] at hh
            cases hh
        rw [if_neg (by simp [hpair]), Turn.finish_ended, perform_eq, HostFunction.call] at h
        split at h
        · rename_i hn
          obtain ⟨rfl, rfl⟩ := settled_inj h
          exact .hostArity hs hh hn
        · rename_i hn
          obtain ⟨rfl, rfl⟩ := settled_inj h
          exact .host hs hh (Nat.le_of_not_lt hn) rfl

/-! One lemma for each keyword: the shapes that its form is read in, and the rule for each. -/

theorem evaluates_of_quote {operands : List Value} (he : IsForm .quote operands e)
    (h : (turn hosts ev f e s).finish ev = settled s' r) : Evaluates hosts s f e r s' := by
  match operands with
  | [q] =>
    rw [turn_of_isForm he rfl] at h
    obtain ⟨rfl, rfl⟩ := value_eq_settled h
    exact .quote he
  | [] | _ :: _ :: _ =>
    rw [turn_of_malformed he rfl] at h
    obtain ⟨rfl, rfl⟩ := failure_eq_settled h
    exact .quoteCount he (by simp)

/-- What `define` and `set!` are read as: a failure that both have in common, or a name that is no
    keyword with an expression. -/
theorem readBinding_cases (table : Host.Table) {k : Keyword} {operands : List Value}
    (hk : k = .define ∨ k = .assign) (he : IsForm k operands e) :
    (∃ err, Form.readBinding k operands = .error err ∧
        ∀ s f, Evaluates table s f e (.error err) s) ∨
      ∃ x q, operands = [.symbol x, q] ∧ Keyword.ofName? x = none := by
  match operands with
  | [.symbol x, q] =>
    cases hx : Keyword.ofName? x with
    | none => exact .inr ⟨x, q, rfl, hx⟩
    | some k' => exact .inl ⟨_, readBinding_keyword hx, fun _ _ => .bindingKeyword hk he hx⟩
  | [.number _, q] | [.string _, q] | [.boolean _, q] | [.emptyList, q] | [.pair .., q]
  | [.procedure _, q] | [.hostFunction .., q] | [.unspecified, q] =>
    exact .inl ⟨_, rfl, fun _ _ => .bindingTarget hk he rfl⟩
  | [] | [_] | _ :: _ :: _ :: _ =>
    exact .inl ⟨_, rfl, fun _ _ => .bindingCount hk he (by simp)⟩

theorem evaluates_of_define (hev : Sound hosts ev) {operands : List Value}
    (he : IsForm .define operands e)
    (h : (turn hosts ev f e s).finish ev = settled s' r) : Evaluates hosts s f e r s' := by
  rcases readBinding_cases hosts (.inl rfl) he with ⟨err, hb, hf⟩ | ⟨x, q, rfl, hx⟩
  · rw [turn_of_malformed he (readSpecial_of_readBinding (.inl rfl) hb)] at h
    obtain ⟨rfl, rfl⟩ := failure_eq_settled h
    exact hf _ _
  · rw [turn_of_isForm he (readSpecial_define hx)] at h
    rcases andThen_eq_settled h with ⟨v, s₁, hv, h⟩ | ⟨err, hq, rfl⟩
    · obtain ⟨rfl, rfl⟩ := value_eq_settled h
      exact .define he hx (hev hv)
    · exact .defineFails he hx (hev hq)

theorem evaluates_of_assign (hev : Sound hosts ev) {operands : List Value}
    (he : IsForm .assign operands e)
    (h : (turn hosts ev f e s).finish ev = settled s' r) : Evaluates hosts s f e r s' := by
  rcases readBinding_cases hosts (.inr rfl) he with ⟨err, hb, hf⟩ | ⟨x, q, rfl, hx⟩
  · rw [turn_of_malformed he (readSpecial_of_readBinding (.inr rfl) hb)] at h
    obtain ⟨rfl, rfl⟩ := failure_eq_settled h
    exact hf _ _
  · rw [turn_of_isForm he (readSpecial_assign hx), formTurn] at h
    split at h
    · rename_i hs
      rcases andThen_eq_settled h with ⟨v, s₁, hv, h⟩ | ⟨err, hq, rfl⟩
      · obtain ⟨rfl, rfl⟩ := value_eq_settled h
        exact .assign he hx hs (hev hv)
      · exact .assignFails he hx hs (hev hq)
    · rename_i hs
      obtain ⟨rfl, rfl⟩ := failure_eq_settled h
      exact .assignUndefined he hx (by simpa using hs)

theorem evaluates_of_lambda {operands : List Value} (he : IsForm .lambda operands e)
    (h : (turn hosts ev f e s).finish ev = settled s' r) : Evaluates hosts s f e r s' := by
  match operands with
  | [] =>
    rw [turn_of_malformed he rfl] at h
    obtain ⟨rfl, rfl⟩ := failure_eq_settled h
    exact .lambdaMissing he
  | parameters :: body =>
    cases hp : parameters.isList with
    | false =>
      rw [turn_of_malformed he (readSpecial_parameters hp)] at h
      obtain ⟨rfl, rfl⟩ := failure_eq_settled h
      exact .lambdaParameters he hp
    | true =>
      rw [turn_of_isForm he (readSpecial_lambda hp)] at h
      cases body with
      | nil =>
        obtain ⟨rfl, rfl⟩ := failure_eq_settled h
        exact .lambdaEmpty he hp
      | cons b body =>
        obtain ⟨rfl, rfl⟩ := value_eq_settled h
        exact .lambda he hp

theorem evaluates_of_branch (hev : Sound hosts ev) {operands : List Value}
    (he : IsForm .branch operands e)
    (h : (turn hosts ev f e s).finish ev = settled s' r) : Evaluates hosts s f e r s' := by
  match operands with
  | [test, c] =>
    rw [turn_of_isForm he rfl, formTurn, Turn.finish_after] at h
    rcases andThen_eq_settled h with ⟨v, s₁, hv, h⟩ | ⟨err, ht, rfl⟩
    · split at h
      · rename_i ht
        exact .branchThen he (by simp) (hev hv) ht (hev h)
      · rename_i ht
        obtain ⟨rfl, rfl⟩ := value_eq_settled h
        exact .branchNone he (hev hv) (by simpa using ht)
    · exact .branchFails he (by simp) (hev ht)
  | [test, c, a] =>
    rw [turn_of_isForm he rfl, formTurn, Turn.finish_after] at h
    rcases andThen_eq_settled h with ⟨v, s₁, hv, h⟩ | ⟨err, ht, rfl⟩
    · split at h
      · rename_i ht
        exact .branchThen he (by simp) (hev hv) ht (hev h)
      · rename_i ht
        exact .branchElse he (hev hv) (by simpa using ht) (hev h)
    · exact .branchFails he (by simp) (hev ht)
  | [] | [_] | _ :: _ :: _ :: _ :: _ =>
    rw [turn_of_malformed he rfl] at h
    obtain ⟨rfl, rfl⟩ := failure_eq_settled h
    exact .branchCount he (by simp)

theorem evaluates_of_sequence (hev : Sound hosts ev) {operands : List Value}
    (he : IsForm .sequence operands e)
    (h : (turn hosts ev f e s).finish ev = settled s' r) : Evaluates hosts s f e r s' := by
  rw [turn_of_isForm he rfl] at h
  cases operands with
  | nil =>
    obtain ⟨rfl, rfl⟩ := value_eq_settled h
    exact .sequenceEmpty he
  | cons b body => exact .sequence he (evaluatesBody_of_bodyTurn hev h)

theorem evaluates_of_scope (hev : Sound hosts ev) {operands : List Value}
    (he : IsForm .scope operands e)
    (h : (turn hosts ev f e s).finish ev = settled s' r) : Evaluates hosts s f e r s' := by
  match operands with
  | bindings :: b :: body =>
    cases hl : bindings.isList with
    | false =>
      rw [turn_of_malformed he (readSpecial_bindings hl)] at h
      obtain ⟨rfl, rfl⟩ := failure_eq_settled h
      exact .scopeNotList he hl
    | true =>
      rw [turn_of_isForm he (readSpecial_scope hl), formTurn, Turn.finish_after] at h
      rcases andThen_eq_settled h with ⟨locals, s₁, hv, h⟩ | ⟨err, hv, rfl⟩
      · exact .scope he hl (evaluatesLocals_of_evalLocals hev hv)
          (evaluatesBody_of_bodyTurn hev h)
      · exact .scopeFails he hl (evaluatesLocals_of_evalLocals hev hv)
  | [] | [_] =>
    rw [turn_of_malformed he rfl] at h
    obtain ⟨rfl, rfl⟩ := failure_eq_settled h
    exact .scopeMissing he (by simp)

theorem evaluates_of_combination (hev : Sound hosts ev) {operator : Value}
    {operands : List Value} (he : IsCombination operator operands e)
    (ho : ∀ {callee s₁}, ev f operator s = settled s₁ (.ok callee) → operator.isPair = false →
      operator.isSymbol = false → hostOf? hosts callee = none)
    (h : (turn hosts ev f e s).finish ev = settled s' r) : Evaluates hosts s f e r s' := by
  rw [turn_of_isCombination he, formTurn, Turn.finish_after] at h
  rcases andThen_eq_settled h with ⟨callee, s₁, hc, h⟩ | ⟨err, hc, rfl⟩
  · rw [Turn.finish_after] at h
    rcases andThen_eq_settled h with ⟨args, s₂, ha, h⟩ | ⟨err, ha, rfl⟩
    · exact .combination he (hev hc) (evaluatesEach_of_evalEach hev ha)
        (applies_of_applyTurn hev (ho hc) h)
    · exact .operandFails he (hev hc) (evaluatesEach_of_evalEach hev ha)
  · exact .operatorFails he (hev hc)

/-- **One turn is one rule**: if what the inner evaluator returns is derived, so is what a turn
    comes to. -/
theorem evaluates_of_turn (hev : Sound hosts ev)
    (ho : ∀ {operator callee s₁}, ev f operator s = settled s₁ (.ok callee) →
      operator.isPair = false → operator.isSymbol = false → hostOf? hosts callee = none)
    (h : (turn hosts ev f e s).finish ev = settled s' r) : Evaluates hosts s f e r s' := by
  cases e with
  | symbol x =>
    unfold turn evalSymbol at h
    cases hk : Keyword.ofName? x with
    | some k =>
      simp only [hk] at h
      obtain ⟨rfl, rfl⟩ := failure_eq_settled h
      exact .symbolKeyword hk
    | none =>
      cases hx : s.get? f x with
      | some v =>
        simp only [hk, hx] at h
        obtain ⟨rfl, rfl⟩ := value_eq_settled h
        exact .symbol hk hx
      | none =>
        simp only [hk, hx] at h
        obtain ⟨rfl, rfl⟩ := failure_eq_settled h
        exact .symbolUndefined hk hx
  | hostFunction | unspecified =>
    obtain ⟨rfl, rfl⟩ := failure_eq_settled h
    exact .illegal rfl
  | pair cell operator rest =>
    rcases isForm_or_isCombination cell operator rest with ⟨k, he⟩ | he
    · cases k with
      | quote => exact evaluates_of_quote he h
      | define => exact evaluates_of_define hev he h
      | assign => exact evaluates_of_assign hev he h
      | lambda => exact evaluates_of_lambda he h
      | branch => exact evaluates_of_branch hev he h
      | sequence => exact evaluates_of_sequence hev he h
      | scope => exact evaluates_of_scope hev he h
    · exact evaluates_of_combination hev he ho h
  | number | string | boolean | emptyList | procedure =>
    obtain ⟨rfl, rfl⟩ := value_eq_settled h
    exact .constant trivial

end Soundness

/-- **What the loop returns has a derivation.** -/
theorem evaluates_of_eval {hosts : Host.Table} (fuel : Nat) : Sound hosts (eval hosts fuel) := by
  induction fuel with
  | zero =>
    intro f e s r s' h
    exact absurd h (unfinished_ne_settled s s' r)
  | succ fuel ih =>
    intro f e s r s' h
    rw [eval_succ] at h
    refine evaluates_of_turn ih (fun hc hp hs => ?_) h
    cases fuel with
    | zero => exact absurd hc (unfinished_ne_settled _ _ _)
    | succ fuel =>
      rw [eval_succ] at hc
      exact hostOf?_of_constant hp hs hc

/-! ## 6. What is derived is returned with enough fuel -/

/-- `p` holds with enough fuel. -/
def Enough (p : Nat → Prop) : Prop := ∃ least, ∀ fuel, least ≤ fuel → p fuel

namespace Enough

variable {p q r : Nat → Prop}

theorem always (h : ∀ fuel, p fuel) : Enough p := ⟨0, fun fuel _ => h fuel⟩

theorem mono (hp : Enough p) (h : ∀ fuel, p fuel → q fuel) : Enough q := by
  obtain ⟨least, hp⟩ := hp
  exact ⟨least, fun fuel hle => h fuel (hp fuel hle)⟩

theorem both (hp : Enough p) (hq : Enough q) : Enough fun fuel => p fuel ∧ q fuel := by
  obtain ⟨m, hp⟩ := hp
  obtain ⟨n, hq⟩ := hq
  exact ⟨max m n, fun fuel hle => ⟨hp fuel (by omega), hq fuel (by omega)⟩⟩

/-- One turn more. -/
theorem succ (hp : Enough fun fuel => p (fuel + 1)) : Enough p := by
  obtain ⟨least, hp⟩ := hp
  refine ⟨least + 1, fun fuel hle => ?_⟩
  obtain ⟨n, rfl⟩ : ∃ n, fuel = n + 1 := ⟨fuel - 1, by omega⟩
  exact hp n (by omega)

end Enough

/-- With enough fuel `e` comes to `r` and leaves `s'`. -/
def Returns (hosts : Host.Table) (s : Store) (f : Nat) (e : Value) (r : Except Error Value)
    (s' : Store) : Prop :=
  Enough fun fuel => eval hosts fuel f e s = settled s' r

section Completeness

variable {hosts : Host.Table} {f : Nat} {e : Value} {s s' : Store} {r : Except Error Value}

/-- It is enough to finish the turn that comes next. -/
theorem returns_of_turn
    (h : Enough fun fuel =>
      (turn hosts (eval hosts fuel) f e s).finish (eval hosts fuel) = settled s' r) :
    Returns hosts s f e r s' :=
  Enough.succ (h.mono fun fuel h => by rw [eval_succ, h])

/-- A form that is read is returned as its turn says. -/
theorem returns_of_form {k : Keyword} {operands : List Value} {form : Form}
    (he : IsForm k operands e) (hr : Form.readSpecial k operands = .ok form)
    (h : Enough fun fuel =>
      (formTurn hosts (eval hosts fuel) f form s).finish (eval hosts fuel) = settled s' r) :
    Returns hosts s f e r s' :=
  returns_of_turn (h.mono fun fuel h => by rw [turn_of_isForm he hr, h])

theorem returns_of_malformed {k : Keyword} {operands : List Value} {err : Error}
    (he : IsForm k operands e) (hr : Form.readSpecial k operands = .error err) :
    Returns hosts s f e (.error err) s :=
  returns_of_turn (.always fun fuel => by rw [turn_of_malformed he hr]; rfl)

/-- An operator that has a host function as its value is a symbol or a pair. -/
theorem hostOf?_of_returns {operator callee : Value} {s₁ : Store}
    (h : Returns hosts s f operator (.ok callee) s₁) (hp : operator.isPair = false)
    (hs : operator.isSymbol = false) : hostOf? hosts callee = none := by
  obtain ⟨least, h⟩ := h
  have h : eval hosts (least + 1) f operator s = _ := h (least + 1) (by omega)
  rw [eval_succ] at h
  exact hostOf?_of_constant hp hs h

mutual

/-- **What is derived is returned with enough fuel.** -/
theorem eval_of_evaluates : ∀ {s : Store} {f : Nat} {e : Value} {r : Except Error Value}
    {s' : Store}, Evaluates hosts s f e r s' → Returns hosts s f e r s'
  | _, _, _, _, _, .constant he =>
    returns_of_turn (.always fun _ => by rw [turn_of_isConstant he]; rfl)
  | _, _, _, _, _, .illegal he =>
    returns_of_turn (.always fun _ => by rw [turn_of_not_isExpression he]; rfl)
  | _, _, _, _, _, .symbol hk hx =>
    returns_of_turn (.always fun _ => by simp [turn, evalSymbol, hk, hx])
  | _, _, _, _, _, .symbolKeyword hk =>
    returns_of_turn (.always fun _ => by simp [turn, evalSymbol, hk])
  | _, _, _, _, _, .symbolUndefined hk hx =>
    returns_of_turn (.always fun _ => by simp [turn, evalSymbol, hk, hx])
  | _, _, _, _, _, .quote he => returns_of_form he rfl (.always fun _ => rfl)
  | _, _, _, _, _, .quoteCount he hn => returns_of_malformed he (readSpecial_quote hn)
  | _, _, _, _, _, .bindingCount hk he hn =>
    returns_of_malformed he (readSpecial_of_readBinding hk (readBinding_count hn))
  | _, _, _, _, _, .bindingTarget hk he ht =>
    returns_of_malformed he (readSpecial_of_readBinding hk (readBinding_target ht))
  | _, _, _, _, _, .bindingKeyword hk he hx =>
    returns_of_malformed he (readSpecial_of_readBinding hk (readBinding_keyword hx))
  | _, _, _, _, _, .define he hx hq => by
    refine returns_of_form he (readSpecial_define hx) ((eval_of_evaluates hq).mono fun fuel h => ?_)
    simp [formTurn, h]
  | _, _, _, _, _, .defineFails he hx hq => by
    refine returns_of_form he (readSpecial_define hx) ((eval_of_evaluates hq).mono fun fuel h => ?_)
    simp [formTurn, h]
  | _, _, _, _, _, .assign he hx hs hq => by
    refine returns_of_form he (readSpecial_assign hx) ((eval_of_evaluates hq).mono fun fuel h => ?_)
    simp [formTurn, hs, h]
  | _, _, _, _, _, .assignFails he hx hs hq => by
    refine returns_of_form he (readSpecial_assign hx) ((eval_of_evaluates hq).mono fun fuel h => ?_)
    simp [formTurn, hs, h]
  | _, _, _, _, _, .assignUndefined he hx hs => by
    refine returns_of_form he (readSpecial_assign hx) (.always fun fuel => ?_)
    simp [formTurn, hs]
  | _, _, _, _, _, .lambda he hp => returns_of_form he (readSpecial_lambda hp) (.always fun _ => rfl)
  | _, _, _, _, _, .lambdaMissing he => returns_of_malformed he rfl
  | _, _, _, _, _, .lambdaParameters he hp => returns_of_malformed he (readSpecial_parameters hp)
  | _, _, _, _, _, .lambdaEmpty he hp =>
    returns_of_form he (readSpecial_lambda hp) (.always fun _ => rfl)
  | _, _, _, _, _, .branchCount he hn => returns_of_malformed he (readSpecial_branch_count hn)
  | _, _, _, _, _, .branchFails he ha ht => by
    refine returns_of_form he (readSpecial_branch ha) ((eval_of_evaluates ht).mono fun fuel h => ?_)
    simp [formTurn, h]
  | _, _, _, _, _, .branchThen he ha ht hv hc => by
    refine returns_of_form he (readSpecial_branch ha)
      (((eval_of_evaluates ht).both (eval_of_evaluates hc)).mono fun fuel h => ?_)
    simp [formTurn, h.1, hv, h.2]
  | _, _, _, _, _, .branchElse he ht hv ha => by
    refine returns_of_form he rfl
      (((eval_of_evaluates ht).both (eval_of_evaluates ha)).mono fun fuel h => ?_)
    simp [formTurn, h.1, hv, h.2]
  | _, _, _, _, _, .branchNone he ht hv => by
    refine returns_of_form he rfl ((eval_of_evaluates ht).mono fun fuel h => ?_)
    simp [formTurn, h, hv]
  | _, _, _, _, _, .sequence he hb => returns_of_form he rfl (bodyTurn_of_evaluatesBody hb)
  | _, _, _, _, _, .sequenceEmpty he => returns_of_form he rfl (.always fun _ => rfl)
  | _, _, _, _, _, .scope he hl hv hb => by
    refine returns_of_form he (readSpecial_scope hl)
      (((evalLocals_of_evaluatesLocals hv).both (bodyTurn_of_evaluatesBody hb)).mono
        fun fuel h => ?_)
    simp only [formTurn, Turn.finish_after, h.1, settled_ok, andThen_value]
    exact h.2
  | _, _, _, _, _, .scopeFails he hl hv => by
    refine returns_of_form he (readSpecial_scope hl)
      ((evalLocals_of_evaluatesLocals hv).mono fun fuel h => ?_)
    simp [formTurn, h]
  | _, _, _, _, _, .scopeMissing he hn => returns_of_malformed he (readSpecial_scope_count hn)
  | _, _, _, _, _, .scopeNotList he hl => returns_of_malformed he (readSpecial_bindings hl)
  | _, _, _, _, _, .combination he ho ha hc => by
    have ho := eval_of_evaluates ho
    have hc := applyTurn_of_applies hc (hostOf?_of_returns ho)
    refine returns_of_turn ((ho.both ((evalEach_of_evaluatesEach ha).both hc)).mono
      fun fuel h => ?_)
    simp [turn_of_isCombination he, formTurn, h.1, h.2.1, h.2.2]
  | _, _, _, _, _, .operatorFails he ho => by
    refine returns_of_turn ((eval_of_evaluates ho).mono fun fuel h => ?_)
    simp [turn_of_isCombination he, formTurn, h]
  | _, _, _, _, _, .operandFails he ho ha => by
    refine returns_of_turn (((eval_of_evaluates ho).both (evalEach_of_evaluatesEach ha)).mono
      fun fuel h => ?_)
    simp [turn_of_isCombination he, formTurn, h.1, h.2]

theorem evalEach_of_evaluatesEach : ∀ {s : Store} {f : Nat} {es : List Value}
    {r : Except Error (List Value)} {s' : Store}, EvaluatesEach hosts s f es r s' →
    Enough fun fuel => evalEach (eval hosts fuel f) es s = settled s' r
  | _, _, _, _, _, .nil => .always fun _ => rfl
  | _, _, _, _, _, .cons he hs => by
    refine ((eval_of_evaluates he).both (evalEach_of_evaluatesEach hs)).mono fun fuel h => ?_
    simp [evalEach, h.1, h.2]
  | _, _, _, _, _, .headFails he => by
    refine (eval_of_evaluates he).mono fun fuel h => ?_
    simp [evalEach, h]
  | _, _, _, _, _, .tailFails he hs => by
    refine ((eval_of_evaluates he).both (evalEach_of_evaluatesEach hs)).mono fun fuel h => ?_
    simp [evalEach, h.1, h.2]

theorem evalLocals_of_evaluatesLocals : ∀ {s : Store} {f : Nat} {bs : List Value}
    {r : Except Error (List (String × Value))} {s' : Store}, EvaluatesLocals hosts s f bs r s' →
    Enough fun fuel => evalLocals (eval hosts fuel f) bs s = settled s' r
  | _, _, _, _, _, .nil => .always fun _ => rfl
  | _, _, _, _, _, .cons hb hx hq hs => by
    refine ((eval_of_evaluates hq).both (evalLocals_of_evaluatesLocals hs)).mono fun fuel h => ?_
    simp [evalLocals, readLocal_symbol hb hx, h.1, h.2]
  | _, _, _, _, _, .badBinding hb => .always fun _ => by simp [evalLocals, readLocal_bad hb]
  | _, _, _, _, _, .keyword hb hx => .always fun _ => by simp [evalLocals, readLocal_keyword hb hx]
  | _, _, _, _, _, .headFails hb hx hq => by
    refine (eval_of_evaluates hq).mono fun fuel h => ?_
    simp [evalLocals, readLocal_symbol hb hx, h]
  | _, _, _, _, _, .tailFails hb hx hq hs => by
    refine ((eval_of_evaluates hq).both (evalLocals_of_evaluatesLocals hs)).mono fun fuel h => ?_
    simp [evalLocals, readLocal_symbol hb hx, h.1, h.2]

theorem bodyTurn_of_evaluatesBody : ∀ {s : Store} {f : Nat} {body : List Value}
    {r : Except Error Value} {s' : Store}, EvaluatesBody hosts s f body r s' →
    Enough fun fuel =>
      (bodyTurn (eval hosts fuel) f body s).finish (eval hosts fuel) = settled s' r
  | _, _, _, _, _, .last he => (eval_of_evaluates he).mono fun fuel h => by
    simp [finish_bodyTurn, evalSequence, h]
  | _, _, _, _, _, .cons he hs => by
    refine ((eval_of_evaluates he).both (bodyTurn_of_evaluatesBody hs)).mono fun fuel h => ?_
    rw [finish_bodyTurn] at h ⊢
    simp only [evalSequence, h.1, settled_ok, andThen_value]
    exact h.2
  | _, _, _, _, _, .headFails he => by
    refine (eval_of_evaluates he).mono fun fuel h => ?_
    simp [finish_bodyTurn, evalSequence, h]
  | _, _, _, _, _, .empty => .always fun _ => rfl

theorem applyTurn_of_applies : ∀ {s : Store} {operator callee : Value} {args : List Value}
    {r : Except Error Value} {s' : Store}, Applies hosts s operator callee args r s' →
    (operator.isPair = false → operator.isSymbol = false → hostOf? hosts callee = none) →
    Enough fun fuel =>
      (applyTurn hosts (eval hosts fuel) operator callee args s).finish (eval hosts fuel)
        = settled s' r
  | _, _, _, _, _, _, .host hs hc hn hr, _ => .always fun _ => by
    rw [applyTurn_of_host hc, if_neg (by simp [isPair_of_isSymbol hs]), Turn.finish_ended,
      perform_eq, HostFunction.call, if_neg (Nat.not_lt.2 hn), hr]
  | _, _, _, _, _, _, .hostArity hs hc hn, _ => .always fun _ => by
    rw [applyTurn_of_host hc, if_neg (by simp [isPair_of_isSymbol hs]), Turn.finish_ended,
      perform_eq, HostFunction.call, if_pos hn]
    rfl
  | _, _, _, _, _, _, .procedure hc hn hp hb, _ => by
    refine (bodyTurn_of_evaluatesBody hb).mono fun fuel h => ?_
    rw [applyTurn_of_procedure hc, procedureTurn, bind_of_symbols hn hp]
    exact h
  | _, _, _, _, _, _, .procedureArity hc hn, _ => .always fun _ => by
    rw [applyTurn_of_procedure hc, procedureTurn, bind_of_arity hn]
    rfl
  | _, _, _, _, _, _, .procedureParameter hc hn hp hq, _ => .always fun _ => by
    rw [applyTurn_of_procedure hc, procedureTurn, bind_of_parameter hn hp hq]
    rfl
  | _, operator, _, _, _, _, .data hc hs hl, ho => .always fun _ => by
    rw [finish_applyTurn_of_data hc hs ho, dataList_eq, hl]

end

end Completeness

/-- **The loop computes what the rules derive**: for every store, frame and expression, evaluation
    returns the value or the failure `r` and leaves the store `s'` exactly if the rules derive
    that. -/
theorem eval_eq_settled_iff_evaluates (hosts : Host.Table) (s : Store) (f : Nat) (e : Value)
    (r : Except Error Value) (s' : Store) :
    (∃ fuel, eval hosts fuel f e s = settled s' r) ↔ Evaluates hosts s f e r s' := by
  constructor
  · rintro ⟨fuel, h⟩
    exact evaluates_of_eval fuel h
  · intro h
    obtain ⟨least, h⟩ := eval_of_evaluates h
    exact ⟨least, h least (Nat.le_refl least)⟩

end HostedLisp.Eval
