import HostedLisp.Eval.Fuel

/-!
# What an evaluation does, step by step

An evaluation is a sequence of actions: it looks up names, checks forms and arities, calls host
functions, and writes to frames. Each of them either succeeds or fails, and what it does to the
store is its own (`Action.perform`), whatever the evaluation does with it. `actions` lists the
actions of an evaluation in their order. Two things are to be shown of such a list:

* `Traces` -- carried out one after the other, the actions lead to the store that the evaluation
  leaves; all of them succeed, but perhaps the last one, with whose failure the evaluation fails;
* `Matches` -- the evaluation depends on the host functions through the calls in the list only: with
  other host functions that answer these calls alike, it takes the same course. "Alike" may be up to
  a change of the text that was displayed so far.

Both at once are what it means that a computation is `Accounted` for. They are closed under doing
one thing after another (`Accounted.andThen`), so that

* `accounted_turn` -- one turn of the loop is accounted for, if its evaluator is;
* `accounted_eval` -- **every evaluation is accounted for by its actions**.
-/

namespace HostedLisp

/-! ## 1. Views of the displayed text -/

/-- The effects with another displayed text. -/
def Effects.view (g : String → String) (w : Effects) : Effects := { w with output := g w.output }

/-- The store with another displayed text. -/
def Store.view (g : String → String) (s : Store) : Store := s.withEffects (s.effects.view g)

theorem Effects.list_view (g : String → String) (vs : List Value) (w : Effects) :
    list vs (w.view g) = ((list vs w).1, (list vs w).2.view g) := by
  unfold list
  split <;> rfl

theorem Store.set_view (g : String → String) (s : Store) (f : Nat) (x : String) (v : Value) :
    (s.view g).set f x v = (s.set f x v).view g := by
  have htarget : (s.view g).target? f x = s.target? f x := rfl
  unfold set
  rw [htarget]
  cases s.target? f x <;> rfl

namespace Eval

/-! ## 2. Actions -/

/-- What evaluation does. -/
inductive Action where
  /-- Looks up the value of a name. -/
  | lookup (f : Nat) (x : String)
  /-- Takes a value that is neither a symbol nor a pair as it is. -/
  | accept (e : Value)
  /-- Reads the form of a pair. -/
  | form (operator : Value) (operands : List Value)
  /-- Reads a binding of a scope. -/
  | binding (b : Value)
  /-- Checks that a name which is to be set is bound. -/
  | assignable (f : Nat) (x : String)
  /-- Enters a body. -/
  | body (es : List Value)
  /-- Writes to a frame. -/
  | set (f : Nat) (x : String) (v : Value)
  /-- Makes a procedure. -/
  | lambda (parameters body : List Value) (f : Nat)
  /-- Makes the frame of a scope. -/
  | scope (f : Nat) (bindings : Bindings)
  /-- Makes the frame of a call. -/
  | bind (p : Procedure) (args : List Value)
  /-- Builds the list of an operator and operands that make no call. -/
  | list (items : List Value)
  /-- Checks the number of arguments for a host function. -/
  | arity (h : HostFunction) (args : List Value)
  /-- Calls a host function. -/
  | call (h : HostFunction) (args : List Value)
  /-- Gives cells to the pairs of a datum. -/
  | label (e : Datum)

/-- The error, if there is one. -/
def errorOf {α : Type} : Except Error α → Option Error
  | .ok _ => none
  | .error err => some err

namespace Action

/-- What an action does to a store, and how it fails. -/
def perform : Action → Store → Option Error × Store
  | lookup f x, s => (errorOf (evalSymbol s f x), s)
  | accept e, s => (if e.isExpression then none else some (.illegalExpression e.display), s)
  | form operator operands, s => (errorOf (Form.read operator operands), s)
  | binding b, s => (errorOf (Form.readLocal b), s)
  | assignable f x, s => (if s.has f x then none else some (.undefinedAssignment x), s)
  | body es, s => (if es.isEmpty then some (.runtime .emptySequence) else none, s)
  | set f x v, s => (none, s.set f x v)
  | lambda parameters es f, s =>
    match s.newProcedure parameters es f with
    | .error err => (some err, s)
    | .ok (_, s) => (none, s)
  | scope f bindings, s => (none, (s.newFrame (some f) bindings).2)
  | bind p args, s =>
    match s.bind p args with
    | .error err => (some err, s)
    | .ok (_, s) => (none, s)
  | list items, s =>
    let (r, w) := Effects.list items s.effects
    (errorOf r, s.withEffects w)
  | arity h args, s =>
    (if args.length < h.arity then
        some (.hostArity h.name h.arity (args.map Expression.display))
      else none, s)
  | call h args, s =>
    let (r, w) := h.run args s.effects
    (errorOf r, s.withEffects w)
  | label e, s => (none, (s.label e).2)

/-- Only functions of the table are called, and only with enough arguments. -/
def Lawful (hosts : Host.Table) : Action → Prop
  | call h args => h ∈ hosts ∧ h.arity ≤ args.length
  | _ => True

end Action

/-- The actions lead from the first store to the second, and fail as said: all succeed, but perhaps
    the last. -/
inductive Traces (hosts : Host.Table) : Store → List Action → Option Error → Store → Prop where
  | nil (s : Store) : Traces hosts s [] none s
  | step {s s₁ s' : Store} {a : Action} {as : List Action} {failure : Option Error}
      (hlawful : a.Lawful hosts) (ha : a.perform s = (none, s₁))
      (has : Traces hosts s₁ as failure s') : Traces hosts s (a :: as) failure s'
  | fails {s s' : Store} {a : Action} {err : Error} (hlawful : a.Lawful hosts)
      (ha : a.perform s = (some err, s')) : Traces hosts s [a] (some err) s'

theorem Traces.append {hosts : Host.Table} {s s₁ s' : Store} {as bs : List Action}
    {failure : Option Error} (h : Traces hosts s as none s₁) (h' : Traces hosts s₁ bs failure s') :
    Traces hosts s (as ++ bs) failure s' := by
  generalize hnone : none = first at h
  induction h with
  | nil => exact h'
  | step hlawful ha _ ih => exact .step hlawful ha (ih h' hnone)
  | fails => cases hnone

/-! ## 3. The actions of an evaluation -/

/-- What an expression does in a frame, as a list. -/
abbrev Logger := Nat → Value → Store → List Action

/-- The actions that follow a value; nothing follows a failure or an unfinished computation. -/
def continuing {α : Type} (r : Result α) (next : α → Store → List Action) : List Action :=
  match r with
  | (.value a, s) => next a s
  | _ => []

theorem continuing_nil {α : Type} (r : Result α) : continuing r (fun _ _ => []) = [] := by
  unfold continuing
  split <;> rfl

/-- The actions of doing something with each element in turn. -/
def logEach {α : Type} (log : α → Store → List Action) (step : α → Store → Result Value) :
    List α → Store → List Action
  | [], _ => []
  | a :: as, s => log a s ++ continuing (step a s) fun _ s => logEach log step as s

/-- The actions of evaluating the bindings of a scope. -/
def logLocals (log : Value → Store → List Action) (ev : Value → Store → Result Value) :
    List Value → Store → List Action
  | [], _ => []
  | b :: bs, s =>
    .binding b :: continuing (settled s (Form.readLocal b)) fun (_, e) s =>
      log e s ++ continuing (ev e s) fun _ s => logLocals log ev bs s

section Turns

variable (hosts : Host.Table) (log : Logger) (ev : Evaluator)

/-- The actions of a body but for its last expression. -/
def logBody (f : Nat) (body : List Value) (s : Store) : List Action :=
  .body body :: logEach (log f) (ev f) body.dropLast s

/-- The actions of applying the value of an operator. -/
def logApply (operator callee : Value) (args : List Value) (s : Store) : List Action :=
  match callee with
  | .hostFunction id _ =>
    match hosts[id]? with
    | none => [.list (callee :: args)]
    | some h =>
      if operator.isPair then [.list (callee :: args)]
      else .arity h args :: if args.length < h.arity then [] else [.call h args]
  | .procedure id =>
    match s.procedures[id]? with
    | none => [.list (callee :: args)]
    | some p =>
      .bind p args :: match s.bind p args with
        | .error _ => []
        | .ok (g, s) => logBody log ev g p.body s
  | _ => [.list (callee :: args)]

/-- The actions of a form but for what is in tail position. -/
def logForm (f : Nat) (form : Form) (s : Store) : List Action :=
  match form with
  | .constant _ => []
  | .define x e => log f e s ++ continuing (ev f e s) fun v _ => [.set f x v]
  | .assign x e =>
    .assignable f x ::
      if s.has f x then log f e s ++ continuing (ev f e s) fun v _ => [.set f x v] else []
  | .lambda parameters body => [.lambda parameters body f]
  | .branch test _ _ => log f test s
  | .sequence body => if body.isEmpty then [] else logBody log ev f body s
  | .scope bindings body =>
    logLocals (log f) (ev f) bindings s ++ continuing (evalLocals (ev f) bindings s) fun locals s =>
      .scope f (Bindings.setAll [] locals) ::
        let (g, s) := s.newFrame (some f) (Bindings.setAll [] locals)
        logBody log ev g body s
  | .application operator operands =>
    log f operator s ++ continuing (ev f operator s) fun callee s =>
      logEach (log f) (ev f) operands s ++ continuing (evalEach (ev f) operands s) fun args s =>
        logApply hosts log ev operator callee args s

/-- The actions of one turn of the loop. -/
def logTurn (f : Nat) (e : Value) (s : Store) : List Action :=
  match e with
  | .symbol x => [.lookup f x]
  | .pair _ operator rest =>
    .form operator rest.items :: match Form.read operator rest.items with
      | .error _ => []
      | .ok form => logForm hosts log ev f form s
  | e => [.accept e]

end Turns

/-- The actions of an evaluation: those of its turns, one after the other. -/
def actions (hosts : Host.Table) : (fuel : Nat) → Logger
  | 0, _, _, _ => []
  | fuel + 1, f, e, s =>
    logTurn hosts (actions hosts fuel) (eval hosts fuel) f e s ++
      match turn hosts (eval hosts fuel) f e s with
      | .ended _ => []
      | .onward f e s => actions hosts fuel f e s

/-! ## 4. Computations that are accounted for -/

/-- The host function `h'` is called like `h`, and on the calls of `h` among the actions it does
    what `h` does, to the text as it is seen through `g`. -/
structure Stands (g : String → String) (as : List Action) (h h' : HostFunction) : Prop where
  name : h'.name = h.name
  arity : h'.arity = h.arity
  run : ∀ args, .call h args ∈ as → ∀ w : Effects,
    h'.run args (w.view g) = ((h.run args w).1, (h.run args w).2.view g)

/-- The second table has a function that stands for every function of the first one. -/
def Matches (g : String → String) (as : List Action) (hosts hosts' : Host.Table) : Prop :=
  ∀ id : Nat, Option.Rel (Stands g as) hosts[id]? hosts'[id]?

/-- What a computation does with host functions and a store. -/
abbrev Computation (α : Type) := Host.Table → Store → Result α

/-- The failure of an outcome. -/
def failure? {α : Type} : Outcome α → Option Error
  | .failure err => some err
  | _ => none

/-- The actions are all that the computation does in the store. -/
structure Accounted {α : Type} (hosts : Host.Table) (s : Store) (as : List Action)
    (R : Computation α) : Prop where
  traces : Traces hosts s as (failure? (R hosts s).1) (R hosts s).2
  depends : ∀ g hosts', Matches g as hosts hosts' →
    R hosts' (s.view g) = ((R hosts s).1, (R hosts s).2.view g)

theorem Matches.mono {g : String → String} {as bs : List Action} {hosts hosts' : Host.Table}
    (h : Matches g bs hosts hosts') (hsub : as ⊆ bs) : Matches g as hosts hosts' := by
  intro id
  have hid := h id
  generalize hosts[id]? = found at hid ⊢
  generalize hosts'[id]? = found' at hid ⊢
  cases hid with
  | none => exact .none
  | some hstands =>
    exact .some ⟨hstands.name, hstands.arity, fun args hargs => hstands.run args (hsub hargs)⟩

theorem Matches.of_none {g : String → String} {as : List Action} {hosts hosts' : Host.Table}
    {id : Nat} (h : Matches g as hosts hosts') (hid : hosts[id]? = none) :
    hosts'[id]? = none := by
  have hrel := h id
  rw [hid] at hrel
  generalize hosts'[id]? = found at hrel
  cases hrel
  rfl

theorem Matches.of_some {g : String → String} {as : List Action} {hosts hosts' : Host.Table}
    {id : Nat} {k : HostFunction} (h : Matches g as hosts hosts') (hid : hosts[id]? = some k) :
    ∃ k', hosts'[id]? = some k' ∧ Stands g as k k' := by
  have hrel := h id
  rw [hid] at hrel
  generalize hosts'[id]? = found at hrel
  cases hrel with
  | some hstands => exact ⟨_, rfl, hstands⟩

section Accounts

variable {α β : Type} {hosts : Host.Table} {s : Store} {as : List Action} {a : Action}

/-- What is unfinished has done nothing yet. -/
theorem accounted_unfinished :
    Accounted hosts s [] fun _ s => ((.unfinished, s) : Result α) :=
  ⟨.nil s, fun _ _ _ => rfl⟩

/-- A value that is there needs no action. -/
theorem accounted_value (v : α) : Accounted hosts s [] fun _ s => (.value v, s) :=
  ⟨.nil s, fun _ _ _ => rfl⟩

/-- A computation of one action. -/
theorem accounted_action {R : Computation α} (hlawful : a.Lawful hosts)
    (ha : a.perform s = (failure? (R hosts s).1, (R hosts s).2))
    (hdepends : ∀ g hosts', Matches g [a] hosts hosts' →
      R hosts' (s.view g) = ((R hosts s).1, (R hosts s).2.view g)) :
    Accounted hosts s [a] R := by
  refine ⟨?_, hdepends⟩
  cases hf : failure? (R hosts s).1 with
  | none =>
    rw [hf] at ha
    exact .step hlawful ha (.nil _)
  | some err =>
    rw [hf] at ha
    exact .fails hlawful ha

/-- A look at the store, which may fail. -/
theorem accounted_settled {x : Store → Except Error α} (hlawful : a.Lawful hosts)
    (ha : a.perform s = (errorOf (x s), s)) (hx : ∀ g, x (s.view g) = x s) :
    Accounted hosts s [a] fun _ s => settled s (x s) := by
  refine accounted_action hlawful ?_ fun g _ _ => ?_
  · rw [ha]
    cases x s <;> rfl
  · rw [hx g]
    cases x s <;> rfl

/-- An action that succeeds, and then a computation. -/
theorem Accounted.cons {N : Computation α} {k : Store → Store} (hlawful : a.Lawful hosts)
    (ha : a.perform s = (none, k s)) (hk : ∀ g, k (s.view g) = (k s).view g)
    (h : Accounted hosts (k s) as N) :
    Accounted hosts s (a :: as) fun hosts s => N hosts (k s) := by
  refine ⟨.step hlawful ha h.traces, fun g hosts' hm => ?_⟩
  have hN := h.depends g hosts' (hm.mono (List.subset_cons_self a as))
  rw [← hk g] at hN
  exact hN

/-- A check that succeeds, and then a computation. -/
theorem Accounted.check {R : Computation α} (hlawful : a.Lawful hosts)
    (ha : a.perform s = (none, s)) (h : Accounted hosts s as R) :
    Accounted hosts s (a :: as) R :=
  Accounted.cons hlawful ha (fun _ => rfl) h

/-- **One computation after another.** -/
theorem Accounted.andThen {R : Computation α} {N : α → Computation β}
    {L : α → Store → List Action} (hR : Accounted hosts s as R)
    (hN : ∀ a s₁, R hosts s = (.value a, s₁) → Accounted hosts s₁ (L a s₁) (N a)) :
    Accounted hosts s (as ++ continuing (R hosts s) L)
      fun hosts s => Eval.andThen (R hosts s) fun a s => N a hosts s := by
  have htraces := hR.traces
  have hdepends := hR.depends
  generalize hr : R hosts s = r at hN htraces hdepends ⊢
  obtain ⟨outcome, s₁⟩ := r
  cases outcome with
  | value a =>
    have hnext : Accounted hosts s₁ (L a s₁) (N a) := hN a s₁ rfl
    constructor
    · rw [hr]
      exact htraces.append hnext.traces
    · intro g hosts' hm
      have hfirst := hdepends g hosts' (hm.mono (List.subset_append_left _ _))
      have hsecond := hnext.depends g hosts' (hm.mono (List.subset_append_right _ _))
      rw [hr, hfirst]
      exact hsecond
  | failure | unfinished =>
    -- nothing follows, so the actions are those that were there
    constructor
    · rw [hr]
      show Traces hosts s (as ++ []) _ _
      rw [List.append_nil]
      exact htraces
    · intro g hosts' hm
      rw [hr, hdepends g hosts' (hm.mono (List.subset_append_left _ _))]
      rfl

/-- A value that is only put into another one. -/
theorem Accounted.map {R : Computation α} (h : Accounted hosts s as R) (k : α → β) :
    Accounted hosts s as fun hosts s =>
      Eval.andThen (R hosts s) fun a s => (.value (k a), s) := by
  have hmap := h.andThen (N := fun a _ s => (.value (k a), s)) (L := fun _ _ => [])
    fun a s₁ _ => accounted_value (k a)
  rwa [continuing_nil, List.append_nil] at hmap

end Accounts

/-! ## 5. Several expressions -/

section Several

variable {hosts : Host.Table} {log : Value → Store → List Action}
  {ev : Host.Table → Value → Store → Result Value}
  (hev : ∀ e s, Accounted hosts s (log e s) fun hosts s => ev hosts e s)
include hev

theorem accounted_evalEach (es : List Value) (s : Store) :
    Accounted hosts s (logEach log (ev hosts) es s) fun hosts s => evalEach (ev hosts) es s := by
  induction es generalizing s with
  | nil => exact accounted_value []
  | cons e es ih => exact (hev e s).andThen fun v s₁ _ => (ih s₁).map (v :: ·)

/-- All but the last expression of a body. -/
theorem accounted_evalSequence {es : List Value} (hne : es ≠ []) (s : Store) :
    Accounted hosts s (logEach log (ev hosts) es.dropLast s)
      fun hosts s => evalSequence (ev hosts) es s := by
  induction es generalizing s with
  | nil => exact absurd rfl hne
  | cons e es ih =>
    cases es with
    | nil => exact accounted_value e
    | cons e' es => exact (hev e s).andThen fun _ s₁ _ => ih (by simp) s₁

theorem accounted_evalLocals (bs : List Value) (s : Store) :
    Accounted hosts s (logLocals log (ev hosts) bs s)
      fun hosts s => evalLocals (ev hosts) bs s := by
  induction bs generalizing s with
  | nil => exact accounted_value []
  | cons b bs ih =>
    have hread : Accounted hosts s [.binding b] fun _ s => settled s (Form.readLocal b) :=
      accounted_settled trivial rfl fun _ => rfl
    exact hread.andThen fun p s₁ _ =>
      (hev p.2 s₁).andThen fun v s₂ _ => (ih s₂).map ((p.1, v) :: ·)

end Several

/-! ## 6. Turns -/

/-- A turn as a result: the value it ended with, or the frame and the expression to go on with. -/
def Turn.toResult : Turn → Result (Value ⊕ Nat × Value)
  | .ended r => andThen r fun v s => (.value (.inl v), s)
  | .onward f e s => (.value (.inr (f, e)), s)

theorem Turn.toResult_after {α : Type} (r : Result α) (next : α → Store → Turn) :
    (Turn.after r next).toResult = Eval.andThen r fun a s => (next a s).toResult := by
  obtain ⟨outcome, s⟩ := r
  cases outcome <;> rfl

/-- What the loop does after a turn. -/
def resume (ev : Evaluator) (next : Value ⊕ Nat × Value) (s : Store) : Result Value :=
  match next with
  | .inl v => (.value v, s)
  | .inr (f, e) => ev f e s

/-- The actions of the loop after a turn. -/
def logResume (log : Logger) (next : Value ⊕ Nat × Value) (s : Store) : List Action :=
  match next with
  | .inl _ => []
  | .inr (f, e) => log f e s

theorem Turn.finish_eq (ev : Evaluator) (t : Turn) :
    t.finish ev = Eval.andThen t.toResult (resume ev) := by
  cases t with
  | ended r =>
    obtain ⟨outcome, s⟩ := r
    cases outcome <;> rfl
  | onward f e s => rfl

theorem actions_succ (hosts : Host.Table) (fuel f : Nat) (e : Value) (s : Store) :
    actions hosts (fuel + 1) f e s
      = logTurn hosts (actions hosts fuel) (eval hosts fuel) f e s
        ++ continuing (turn hosts (eval hosts fuel) f e s).toResult
          (logResume (actions hosts fuel)) := by
  rw [actions]
  cases turn hosts (eval hosts fuel) f e s with
  | ended r =>
    obtain ⟨outcome, s₁⟩ := r
    cases outcome <;> rfl
  | onward g e' s₁ => rfl

/-- The actions are all that a turn does. -/
def AccountedTurn (hosts : Host.Table) (s : Store) (as : List Action)
    (T : Host.Table → Store → Turn) : Prop :=
  Accounted hosts s as fun hosts s => (T hosts s).toResult

section Turns

variable {hosts : Host.Table} {s : Store} {as : List Action} {a : Action}

theorem Accounted.ended {R : Computation Value} (h : Accounted hosts s as R) :
    AccountedTurn hosts s as fun hosts s => .ended (R hosts s) :=
  h.map Sum.inl

theorem accounted_onward (f : Nat) (e : Value) :
    AccountedTurn hosts s [] fun _ s => .onward f e s :=
  accounted_value (Sum.inr (f, e))

/-- A turn that comes to the same. -/
theorem AccountedTurn.congr {T T' : Host.Table → Store → Turn} (h : AccountedTurn hosts s as T)
    (hT : T' hosts s = T hosts s)
    (hview : ∀ g hosts', Matches g as hosts hosts' → T' hosts' (s.view g) = T hosts' (s.view g)) :
    AccountedTurn hosts s as T' := by
  refine ⟨?_, fun g hosts' hm => ?_⟩
  · rw [hT]
    exact h.traces
  · rw [hT, hview g hosts' hm]
    exact h.depends g hosts' hm

theorem Accounted.after {α : Type} {R : Computation α} {T : α → Host.Table → Store → Turn}
    {L : α → Store → List Action} (hR : Accounted hosts s as R)
    (hT : ∀ a s₁, R hosts s = (.value a, s₁) → AccountedTurn hosts s₁ (L a s₁) (T a)) :
    AccountedTurn hosts s (as ++ continuing (R hosts s) L)
      fun hosts s => .after (R hosts s) fun a s => T a hosts s := by
  have h := hR.andThen (N := fun a hosts s => (T a hosts s).toResult) hT
  unfold AccountedTurn
  simp only [Turn.toResult_after]
  exact h

/-- A check that fails. -/
theorem accounted_refusal {err : Error} (ha : a.perform s = (some err, s))
    (hlawful : a.Lawful hosts) :
    AccountedTurn hosts s [a] fun _ s => .ended (.failure err, s) := by
  have h : Accounted hosts s [a] fun _ s => settled s (.error err : Except Error Value) :=
    accounted_settled hlawful ha fun _ => rfl
  exact h.ended

variable {log : Logger} {ev : Host.Table → Evaluator}
  (hev : ∀ f e s, Accounted hosts s (log f e s) fun hosts s => ev hosts f e s)

/-- A list that makes no call. -/
theorem accounted_dataList (callee : Value) (args : List Value) (s : Store) :
    Accounted hosts s [.list (callee :: args)] fun _ s => dataList callee args s := by
  refine accounted_action trivial ?_ fun g _ _ => ?_
  · simp only [dataList, perform_eq, Action.perform]
    cases (Effects.list (callee :: args) s.effects).1 <;> rfl
  · have hview := Effects.list_view g (callee :: args) s.effects
    simp only [dataList, perform_eq]
    show settled ((s.view g).withEffects (Effects.list _ (s.effects.view g)).2)
      (Effects.list _ (s.effects.view g)).1 = _
    rw [hview]
    cases (Effects.list (callee :: args) s.effects).1 <;> rfl

/-- A host function is called only with enough arguments, and one that stands for it does the
    same. -/
theorem traces_call {h : HostFunction} (hmem : h ∈ hosts) (args : List Value) (s : Store) :
    let log := Action.arity h args :: if args.length < h.arity then [] else [.call h args]
    let r := perform s (h.call args)
    Traces hosts s log (failure? r.1) r.2 ∧
      ∀ g h', Stands g log h h' →
        perform (s.view g) (h'.call args) = (r.1, r.2.view g) := by
  intro log r
  by_cases hfew : args.length < h.arity
  · have hlog : log = [.arity h args] := by simp [log, hfew]
    have hr : r = (.failure (.hostArity h.name h.arity (args.map Expression.display)), s) := by
      simp [r, perform_eq, HostFunction.call, hfew, settled, Store.withEffects]
    rw [hlog, hr]
    refine ⟨.fails trivial (by simp [Action.perform, hfew]), fun g h' hstands => ?_⟩
    rw [perform_eq, HostFunction.call, hstands.arity, hstands.name, if_pos hfew]
    rfl
  · have hlog : log = [.arity h args, .call h args] := by simp [log, hfew]
    have hr : r = settled (s.withEffects (h.run args s.effects).2) (h.run args s.effects).1 := by
      simp [r, perform_eq, HostFunction.call, hfew]
    have harity : (Action.arity h args).perform s = (none, s) := by
      simp [Action.perform, hfew]
    have hcall : Action.Lawful hosts (.call h args) := ⟨hmem, Nat.le_of_not_lt hfew⟩
    rw [hlog, hr]
    refine ⟨.step trivial harity ?_, fun g h' hstands => ?_⟩
    · cases hrun : (h.run args s.effects).1 with
      | ok v => exact .step hcall (by simp [Action.perform, hrun, errorOf]; rfl) (.nil _)
      | error err => exact .fails hcall (by simp [Action.perform, hrun, errorOf]; rfl)
    · have hrun := hstands.run args (by simp) s.effects
      rw [perform_eq, HostFunction.call, hstands.arity, if_neg hfew]
      show settled ((s.view g).withEffects (h'.run args (s.effects.view g)).2)
        (h'.run args (s.effects.view g)).1 = _
      rw [hrun]
      cases (h.run args s.effects).1 <;> rfl

/-- A host function that is not called is data. -/
theorem accounted_hostData {operator : Value} {id : Nat}
    (h : hosts[id]? = none ∨ operator.isPair = true) (name : String) (args : List Value)
    (s : Store) :
    AccountedTurn hosts s (logApply hosts log (ev hosts) operator (.hostFunction id name) args s)
      fun hosts s => applyTurn hosts (ev hosts) operator (.hostFunction id name) args s := by
  have hlog : logApply hosts log (ev hosts) operator (.hostFunction id name) args s
      = [.list (.hostFunction id name :: args)] := by
    rcases h with hid | hpair
    · simp only [logApply, hid]
    · cases hid : hosts[id]? <;> simp only [logApply, hid, hpair, if_true]
  have hturn : ∀ (hosts' : Host.Table) (s' : Store),
      hosts'[id]? = none ∨ operator.isPair = true →
      applyTurn hosts' (ev hosts') operator (.hostFunction id name) args s'
        = .ended (dataList (.hostFunction id name) args s') := by
    rintro hosts' s' (hid | hpair)
    · simp only [applyTurn, hid]
    · cases hid : hosts'[id]? <;> simp only [applyTurn, hid, hpair, if_true]
  rw [hlog]
  refine (accounted_dataList _ args s).ended.congr (hturn hosts s h) fun g hosts' hm => ?_
  exact hturn hosts' _ (h.imp_left hm.of_none)

/-- A host function that is called does what its actions say. -/
theorem accounted_hostCall {operator : Value} {id : Nat} {h : HostFunction}
    (hid : hosts[id]? = some h) (hpair : operator.isPair = false) (name : String)
    (args : List Value) (s : Store) :
    AccountedTurn hosts s (logApply hosts log (ev hosts) operator (.hostFunction id name) args s)
      fun hosts s => applyTurn hosts (ev hosts) operator (.hostFunction id name) args s := by
  have hlog : logApply hosts log (ev hosts) operator (.hostFunction id name) args s
      = .arity h args :: if args.length < h.arity then [] else [.call h args] := by
    simp only [logApply, hid, hpair, Bool.false_eq_true, if_false]
  -- the function that the number stands for, in whichever table
  have hturn : ∀ (hosts' : Host.Table) (h' : HostFunction) (s' : Store),
      hosts'[id]? = some h' →
      applyTurn hosts' (ev hosts') operator (.hostFunction id name) args s'
        = .ended (perform s' ((hosts'[id]?.getD h).call args)) := by
    intro hosts' h' s' hfound
    simp only [applyTurn, hfound, hpair, Bool.false_eq_true, if_false, Option.getD_some]
  obtain ⟨htraces, hdepends⟩ := traces_call (Array.mem_of_getElem? hid) args s
  rw [hlog]
  have hcall : Accounted hosts s
      (.arity h args :: if args.length < h.arity then [] else [.call h args])
      fun hosts s => perform s ((hosts[id]?.getD h).call args) := by
    constructor
    · rw [hid]
      exact htraces
    · intro g hosts' hm
      obtain ⟨h', hfound, hstands⟩ := hm.of_some hid
      rw [hid, hfound]
      exact hdepends g h' hstands
  refine hcall.ended.congr (hturn hosts h s hid) fun g hosts' hm => ?_
  obtain ⟨h', hfound, -⟩ := hm.of_some hid
  exact hturn hosts' h' _ hfound

include hev

theorem accounted_bodyTurn (f : Nat) (body : List Value) (s : Store) :
    AccountedTurn hosts s (logBody log (ev hosts) f body s)
      fun hosts s => bodyTurn (ev hosts) f body s := by
  by_cases hbody : body = []
  · subst hbody
    exact accounted_refusal rfl trivial
  · have hcheck : (Action.body body).perform s = (none, s) := by
      simp [Action.perform, hbody]
    have hsequence := accounted_evalSequence (hev f) hbody s
    have hturn := hsequence.after (T := fun last _ s => .onward f last s) (L := fun _ _ => [])
      fun last s₁ _ => accounted_onward f last
    rw [continuing_nil, List.append_nil] at hturn
    exact Accounted.check trivial hcheck hturn

theorem accounted_procedureTurn (p : Procedure) (args : List Value) (s : Store) :
    AccountedTurn hosts s
      (.bind p args :: match s.bind p args with
        | .error _ => []
        | .ok (g, s) => logBody log (ev hosts) g p.body s)
      fun hosts s => procedureTurn (ev hosts) p args s := by
  cases hb : Store.argumentBindings p.parameters args with
  | error err =>
    have hbind : ∀ s : Store, s.bind p args = .error err := by
      intro s
      simp only [Store.bind, hb]
    have hturn : AccountedTurn hosts s [.bind p args] fun _ s => .ended (.failure err, s) :=
      accounted_refusal (by simp only [Action.perform, hbind]) trivial
    simp only [hbind, procedureTurn]
    exact hturn
  | ok bindings =>
    have hbind : ∀ s : Store, s.bind p args = .ok (s.newFrame (some p.frame) bindings) := by
      intro s
      simp only [Store.bind, hb]
    have hbody := accounted_bodyTurn hev s.frames.size p.body
      (s.newFrame (some p.frame) bindings).2
    have hturn := Accounted.cons (a := .bind p args)
      (k := fun s => (s.newFrame (some p.frame) bindings).2) trivial
      (by simp only [Action.perform, hbind]) (fun _ => rfl) hbody
    simp only [hbind, procedureTurn]
    exact AccountedTurn.congr hturn rfl fun _ _ _ => rfl

theorem accounted_applyTurn (operator callee : Value) (args : List Value) (s : Store) :
    AccountedTurn hosts s (logApply hosts log (ev hosts) operator callee args s)
      fun hosts s => applyTurn hosts (ev hosts) operator callee args s := by
  cases callee with
  | hostFunction id name =>
    cases hid : hosts[id]? with
    | none => exact accounted_hostData (.inl hid) name args s
    | some h =>
      cases hpair : operator.isPair with
      | true => exact accounted_hostData (.inr hpair) name args s
      | false => exact accounted_hostCall hid hpair name args s
  | procedure id =>
    cases hp : s.procedures[id]? with
    | none =>
      have hlog : logApply hosts log (ev hosts) operator (.procedure id) args s
          = [.list (.procedure id :: args)] := by
        simp only [logApply, hp]
      rw [hlog]
      refine (accounted_dataList (.procedure id) args s).ended.congr ?_ fun g hosts' _ => ?_
      · simp only [applyTurn, hp]
      · have hp' : (s.view g).procedures[id]? = none := hp
        simp only [applyTurn, hp']
    | some p =>
      have hturn := accounted_procedureTurn hev p args s
      simp only [logApply, hp]
      refine hturn.congr ?_ fun g hosts' _ => ?_
      · simp only [applyTurn, hp]
      · have hp' : (s.view g).procedures[id]? = some p := hp
        simp only [applyTurn, hp']
  | _ => exact (accounted_dataList _ args s).ended

/-- What `define` and `set!` do once they have a value to write. -/
theorem accounted_write (f : Nat) (x : String) (e : Value) (s : Store) :
    Accounted hosts s (log f e s ++ continuing (ev hosts f e s) fun v _ => [.set f x v])
      fun hosts s => andThen (ev hosts f e s) fun v s =>
        ((.value .unspecified, s.set f x v) : Result Value) := by
  refine (hev f e s).andThen fun v s₁ _ => ?_
  have hvalue : Accounted hosts (s₁.set f x v) []
      fun _ s => ((.value .unspecified, s) : Result Value) :=
    accounted_value _
  exact Accounted.cons (k := fun s => s.set f x v) trivial rfl
    (fun g => Store.set_view g s₁ f x v) hvalue

omit hev in
theorem accounted_lambda (parameters body : List Value) (f : Nat) (s : Store) :
    AccountedTurn hosts s [.lambda parameters body f]
      fun hosts s => formTurn hosts (ev hosts) f (.lambda parameters body) s := by
  cases hbody : body.isEmpty with
  | true =>
    have hnew : ∀ s : Store, s.newProcedure parameters body f
        = .error (.malformed Keyword.lambda.name .emptyBody) := by
      intro s
      simp only [Store.newProcedure, hbody, if_true]
    simp only [formTurn, hnew]
    exact accounted_refusal (by simp only [Action.perform, hnew]) trivial
  | false =>
    have hnew : ∀ s : Store, s.newProcedure parameters body f
        = .ok (.procedure s.procedures.size,
            { s with procedures := s.procedures.push ⟨parameters, body, f⟩ }) := by
      intro s
      simp only [Store.newProcedure, hbody, Bool.false_eq_true, if_false]
    have hmade : Accounted hosts s [.lambda parameters body f] fun _ s =>
        ((.value (.procedure s.procedures.size),
          { s with procedures := s.procedures.push ⟨parameters, body, f⟩ }) : Result Value) :=
      accounted_action trivial (by simp only [Action.perform, hnew]; rfl) fun _ _ _ => rfl
    simp only [formTurn, hnew]
    exact hmade.ended

theorem accounted_formTurn (f : Nat) (form : Form) (s : Store) :
    AccountedTurn hosts s (logForm hosts log (ev hosts) f form s)
      fun hosts s => formTurn hosts (ev hosts) f form s := by
  cases form with
  | constant v => exact (accounted_value v).ended
  | define x e => exact (accounted_write hev f x e s).ended
  | assign x e =>
    by_cases hx : s.has f x = true
    · have hcheck : (Action.assignable f x).perform s = (none, s) := by
        simp only [Action.perform, hx, if_true]
      simp only [logForm, hx, if_true]
      refine AccountedTurn.congr
        (Accounted.check trivial hcheck (accounted_write hev f x e s).ended) ?_ fun g hosts' _ => ?_
      · simp only [formTurn, hx, if_true]
      · have hx' : (s.view g).has f x = true := hx
        simp only [formTurn, hx', if_true]
    · have hcheck : (Action.assignable f x).perform s = (some (.undefinedAssignment x), s) := by
        simp only [Action.perform, hx, if_false, Bool.false_eq_true]
      simp only [logForm, hx, if_false, Bool.false_eq_true]
      refine (accounted_refusal hcheck trivial).congr ?_ fun g hosts' _ => ?_
      · simp only [formTurn, hx, if_false, Bool.false_eq_true]
      · have hx' : ¬(s.view g).has f x = true := hx
        simp only [formTurn, hx', if_false, Bool.false_eq_true]
  | lambda parameters body => exact accounted_lambda parameters body f s
  | branch test consequent alternative =>
    have hturn : AccountedTurn hosts s _
        fun hosts s => formTurn hosts (ev hosts) f (.branch test consequent alternative) s :=
      (hev f test s).after (L := fun _ _ => []) ?_
    · rw [continuing_nil, List.append_nil] at hturn
      exact hturn
    · intro v s₁ _
      cases v.isTruthy with
      | true => exact accounted_onward f consequent
      | false =>
        cases alternative with
        | some e => exact accounted_onward f e
        | none => exact (accounted_value .unspecified).ended
  | sequence body =>
    cases hbody : body.isEmpty with
    | true =>
      simp only [logForm, formTurn, hbody, if_true]
      exact (accounted_value .unspecified).ended
    | false =>
      simp only [logForm, formTurn, hbody, if_false, Bool.false_eq_true]
      exact accounted_bodyTurn hev f body s
  | scope bindings body =>
    refine (accounted_evalLocals (hev f) bindings s).after fun locals s₁ _ => ?_
    have hbody := accounted_bodyTurn hev s₁.frames.size body
      (s₁.newFrame (some f) (Bindings.setAll [] locals)).2
    have hturn := Accounted.cons (a := .scope f (Bindings.setAll [] locals))
      (k := fun s => (s.newFrame (some f) (Bindings.setAll [] locals)).2) trivial rfl
      (fun _ => rfl) hbody
    exact AccountedTurn.congr hturn rfl fun _ _ _ => rfl
  | application operator operands =>
    refine (hev f operator s).after fun callee s₁ _ => ?_
    refine (accounted_evalEach (hev f) operands s₁).after fun args s₂ _ => ?_
    exact accounted_applyTurn hev operator callee args s₂

/-- **One turn of the loop is accounted for**, if its evaluator is. -/
theorem accounted_turn (f : Nat) (e : Value) (s : Store) :
    AccountedTurn hosts s (logTurn hosts log (ev hosts) f e s)
      fun hosts s => turn hosts (ev hosts) f e s := by
  cases e with
  | symbol x =>
    have hlookup : Accounted hosts s [.lookup f x] fun _ s => settled s (evalSymbol s f x) :=
      accounted_settled trivial rfl fun _ => rfl
    exact hlookup.ended
  | pair cell operator rest =>
    cases hread : Form.read operator rest.items with
    | error err =>
      simp only [logTurn, turn, hread]
      exact accounted_refusal (by simp only [Action.perform, hread, errorOf]) trivial
    | ok form =>
      simp only [logTurn, turn, hread]
      exact Accounted.check trivial (by simp only [Action.perform, hread, errorOf])
        (accounted_formTurn hev f form s)
  | hostFunction | unspecified => exact accounted_refusal rfl trivial
  | _ => exact Accounted.check trivial rfl (accounted_value _).ended

end Turns

/-! ## 7. Evaluations -/

/-- **Every evaluation is accounted for by its actions.** By induction on the fuel: the actions of a
    turn are accounted for, and those of the turns behind it. -/
theorem accounted_eval (hosts : Host.Table) (fuel f : Nat) (e : Value) (s : Store) :
    Accounted hosts s (actions hosts fuel f e s) fun hosts s => eval hosts fuel f e s := by
  induction fuel generalizing f e s with
  | zero => exact accounted_unfinished
  | succ fuel ih =>
    have hturn : Accounted hosts s (logTurn hosts (actions hosts fuel) (eval hosts fuel) f e s)
        fun hosts s => (turn hosts (eval hosts fuel) f e s).toResult :=
      accounted_turn ih f e s
    have hrest : ∀ next s₁, Accounted hosts s₁ (logResume (actions hosts fuel) next s₁)
        fun hosts s => resume (eval hosts fuel) next s := by
      intro next s₁
      cases next with
      | inl v => exact accounted_value v
      | inr onward => exact ih onward.1 onward.2 s₁
    simp only [actions_succ, eval_succ, Turn.finish_eq]
    exact hturn.andThen fun next s₁ _ => hrest next s₁

end Eval

end HostedLisp
