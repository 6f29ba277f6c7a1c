import HostedLisp.Proofs.Sessions.FirstFailure

/-!
# What a run displays

With the standard host functions, texts are displayed by calls of `display` and by nothing else. So
the texts that a run displays can be read off its actions, one for each such call, and what it adds
to the displayed text is these texts one after the other. What was displayed before does not matter
to a run: it takes the same actions, comes to the same outcome and adds the same texts.

* `Eval.written` -- the texts that actions display;
* `Eval.Traces.output_eq` -- actions add to the displayed text what they write, and nothing else;
* `Eval.actions_view` -- **what was displayed before does not matter to what is done**;
* `Session.writes` -- the texts that running a source displays, in their order;
* `Session.run_output`, `Session.run_view`, `Session.writes_view` -- the same of whole runs.
-/

namespace HostedLisp

/-! ## 1. Writes -/

namespace Eval

/-- The texts that an action displays. -/
def Action.written : Action → List String
  | .call h args => h.written args
  | _ => []

/-- The texts that actions display, in their order. -/
def written (as : List Action) : List String := as.flatMap Action.written

/-- **An action adds to the displayed text what it writes**, and nothing else. -/
theorem Action.output_perform {hosts : Host.Table} (hstandard : ∀ h ∈ hosts, h ∈ Host.standard)
    {a : Action} (hlawful : a.Lawful hosts) (s : Store) :
    (a.perform s).2.effects.output = s.effects.output ++ String.join a.written := by
  have hnone : ∀ {s' : Store}, s'.effects.output = s.effects.output →
      s'.effects.output = s.effects.output ++ String.join [] := by
    intro s' hsame
    rw [hsame]
    exact String.append_empty.symm
  cases a with
  | lookup f x | form operator operands | binding b | scope f bindings | accept e
  | assignable f x | body es | arity k args | label e => exact hnone rfl
  | set f x v =>
    refine hnone ?_
    simp only [perform, Store.set]
    split <;> rfl
  | lambda parameters es f =>
    refine hnone ?_
    simp only [perform, Store.newProcedure]
    cases es.isEmpty <;> rfl
  | bind p args =>
    refine hnone ?_
    simp only [perform, Store.bind]
    cases Store.argumentBindings p.parameters args <;> rfl
  | list items =>
    refine hnone ?_
    simp only [perform, Effects.list]
    split <;> rfl
  | call k args =>
    exact (Host.orderly_of_mem_standard (hstandard k hlawful.1)).output args s.effects

/-- **Actions add to the displayed text what they write**, one after the other. -/
theorem Traces.output_eq {hosts : Host.Table} (hstandard : ∀ h ∈ hosts, h ∈ Host.standard)
    {s s' : Store} {as : List Action} {failure : Option Error}
    (h : Traces hosts s as failure s') :
    s'.effects.output = s.effects.output ++ String.join (written as) := by
  induction h with
  | nil s => exact String.append_empty.symm
  | @step s s₁ s' a as failure hlawful ha _ ih =>
    have hfirst := a.output_perform hstandard hlawful s
    rw [ha] at hfirst
    rw [ih, hfirst, String.append_assoc, ← String.join_append]
    rfl
  | @fails s s' a err hlawful ha =>
    have hfirst := a.output_perform hstandard hlawful s
    rw [ha] at hfirst
    rw [hfirst, written, List.flatMap_singleton]

/-! ## 2. What was displayed before -/

/-- The host functions do the same whatever is displayed, as it is seen through `g`. -/
def Blind (g : String → String) (hosts : Host.Table) : Prop :=
  ∀ k ∈ hosts, ∀ args (w : Effects),
    k.run args (w.view g) = ((k.run args w).1, (k.run args w).2.view g)

theorem Blind.matches_self {g : String → String} {hosts : Host.Table} (h : Blind g hosts)
    (as : List Action) : Matches g as hosts hosts := by
  intro id
  cases hid : hosts[id]? with
  | none => exact .none
  | some k => exact .some ⟨rfl, rfl, fun args _ w => h k (Array.mem_of_getElem? hid) args w⟩

/-- The standard host functions do the same behind any text. -/
theorem blind_append {hosts : Host.Table} (hstandard : ∀ h ∈ hosts, h ∈ Host.standard)
    (text : String) : Blind (text ++ ·) hosts :=
  fun k hk args w => (Host.orderly_of_mem_standard (hstandard k hk)).display text args w

/-- A result with another displayed text. -/
def seen {α : Type} (g : String → String) (r : Result α) : Result α := (r.1, r.2.view g)

theorem continuing_seen {α : Type} {g : String → String} {L : α → Store → List Action}
    (hL : ∀ a s, L a (s.view g) = L a s) (r : Result α) :
    continuing (seen g r) L = continuing r L := by
  obtain ⟨outcome, s⟩ := r
  cases outcome with
  | value a => exact hL a s
  | failure | unfinished => rfl

section Blind

variable {g : String → String} {hosts : Host.Table} (hblind : Blind g hosts)
include hblind

theorem Accounted.eq_seen {α : Type} {s : Store} {as : List Action} {R : Computation α}
    (h : Accounted hosts s as R) : R hosts (s.view g) = seen g (R hosts s) :=
  h.depends g hosts (hblind.matches_self as)

/-- The actions of doing something with each element in turn. -/
theorem logEach_view {α : Type} {log : α → Store → List Action}
    {step : Host.Table → α → Store → Result Value}
    (hstep : ∀ a s, Accounted hosts s (log a s) fun hosts s => step hosts a s)
    (hlog : ∀ a s, log a (s.view g) = log a s) (as : List α) (s : Store) :
    logEach log (step hosts) as (s.view g) = logEach log (step hosts) as s := by
  induction as generalizing s with
  | nil => rfl
  | cons a as ih =>
    rw [logEach, logEach, hlog, (hstep a s).eq_seen hblind, continuing_seen fun _ s => ih s]

section Turns

variable {log : Logger} {ev : Host.Table → Evaluator}
  (hev : ∀ f e s, Accounted hosts s (log f e s) fun hosts s => ev hosts f e s)
  (hlog : ∀ f e s, log f e (s.view g) = log f e s)
include hev hlog

theorem logLocals_view (f : Nat) (bs : List Value) (s : Store) :
    logLocals (log f) (ev hosts f) bs (s.view g) = logLocals (log f) (ev hosts f) bs s := by
  induction bs generalizing s with
  | nil => rfl
  | cons b bs ih =>
    rw [logLocals, logLocals]
    cases Form.readLocal b with
    | error err => rfl
    | ok p =>
      show _ :: (log f p.2 (s.view g) ++ continuing (ev hosts f p.2 (s.view g)) _) = _
      rw [hlog, (hev f p.2 s).eq_seen hblind, continuing_seen fun _ s => ih s]
      rfl

theorem logBody_view (f : Nat) (body : List Value) (s : Store) :
    logBody log (ev hosts) f body (s.view g) = logBody log (ev hosts) f body s := by
  rw [logBody, logBody, logEach_view hblind (hev f) (hlog f)]

theorem logApply_view (operator callee : Value) (args : List Value) (s : Store) :
    logApply hosts log (ev hosts) operator callee args (s.view g)
      = logApply hosts log (ev hosts) operator callee args s := by
  cases callee with
  | procedure id =>
    have hp : (s.view g).procedures[id]? = s.procedures[id]? := rfl
    simp only [logApply, hp]
    cases s.procedures[id]? with
    | none => rfl
    | some p =>
      simp only [Store.bind]
      cases Store.argumentBindings p.parameters args with
      | error err => rfl
      | ok bindings =>
        exact congrArg (_ :: ·) (logBody_view hblind hev hlog _ _
          (s.newFrame (some p.frame) bindings).2)
  | _ => rfl

theorem logForm_view (f : Nat) (form : Form) (s : Store) :
    logForm hosts log (ev hosts) f form (s.view g) = logForm hosts log (ev hosts) f form s := by
  have hwrite : ∀ (x : String) (e : Value) (s : Store),
      (log f e (s.view g) ++ continuing (ev hosts f e (s.view g)) fun v _ => [.set f x v])
        = log f e s ++ continuing (ev hosts f e s) fun v _ => [.set f x v] := by
    intro x e s
    rw [hlog, (hev f e s).eq_seen hblind, continuing_seen fun _ _ => rfl]
  cases form with
  | constant | lambda => rfl
  | define x e => exact hwrite x e s
  | assign x e =>
    have hx : (s.view g).has f x = s.has f x := rfl
    simp only [logForm, hx, hwrite]
  | branch test consequent alternative => exact hlog f test s
  | sequence body => simp only [logForm, logBody_view hblind hev hlog]
  | scope bindings body =>
    rw [logForm, logForm, logLocals_view hblind hev hlog,
      (accounted_evalLocals (hev f) bindings s).eq_seen hblind, continuing_seen]
    intro locals s
    exact congrArg (_ :: ·) (logBody_view hblind hev hlog _ _
      (s.newFrame (some f) (Bindings.setAll [] locals)).2)
  | application operator operands =>
    rw [logForm, logForm, hlog, (hev f operator s).eq_seen hblind, continuing_seen]
    intro callee s
    rw [logEach_view hblind (hev f) (hlog f),
      (accounted_evalEach (hev f) operands s).eq_seen hblind,
      continuing_seen fun args s => logApply_view hblind hev hlog operator callee args s]

theorem logTurn_view (f : Nat) (e : Value) (s : Store) :
    logTurn hosts log (ev hosts) f e (s.view g) = logTurn hosts log (ev hosts) f e s := by
  cases e with
  | pair cell operator rest =>
    simp only [logTurn]
    cases Form.read operator rest.items with
    | error err => rfl
    | ok form => exact congrArg (_ :: ·) (logForm_view hblind hev hlog f form s)
  | _ => rfl

end Turns

/-- **What was displayed before does not matter to what is done.** By induction on the fuel: a turn
    takes the same actions and leaves the same to do. -/
theorem actions_view (fuel f : Nat) (e : Value) (s : Store) :
    actions hosts fuel f e (s.view g) = actions hosts fuel f e s := by
  induction fuel generalizing f e s with
  | zero => rfl
  | succ fuel ih =>
    have hturn : (turn hosts (eval hosts fuel) f e (s.view g)).toResult
        = seen g (turn hosts (eval hosts fuel) f e s).toResult :=
      (accounted_turn (accounted_eval hosts fuel) f e s).eq_seen hblind
    rw [actions_succ, actions_succ, hturn,
      logTurn_view hblind (accounted_eval hosts fuel) ih, continuing_seen]
    intro next s
    cases next with
    | inl v => rfl
    | inr onward => exact ih onward.1 onward.2 s

end Blind

end Eval

/-! ## 3. Runs of sources -/

namespace Session

open Eval

/-- The texts that running a source displays, in their order. -/
def writes (s : Session) (source : String) : List String :=
  match Program.parse source with
  | .error _ => []
  | .ok program => written (performed s.hosts fuel program s.store)

/-- The session with another displayed text. -/
def view (g : String → String) (s : Session) : Session := { s with store := s.store.view g }

theorem performed_view {g : String → String} {hosts : Host.Table} (hblind : Blind g hosts)
    (fuel : Nat) (program : List Datum) (s : Store) :
    performed hosts fuel program (s.view g) = performed hosts fuel program s := by
  refine logEach_view hblind (accounted_evalDatum hosts fuel) (fun e s => ?_) program s
  exact congrArg (_ :: ·) (actions_view hblind fuel globalFrame (s.label e).1 (s.label e).2)

variable {s : Session} (hstandard : ∀ h ∈ s.hosts, h ∈ Host.standard)
include hstandard

/-- **A run adds to the displayed text what it writes.** -/
theorem run_output (source : String) :
    (s.run source).2.store.effects.output
      = s.store.effects.output ++ String.join (s.writes source) := by
  unfold run runSource writes
  cases Program.parse source with
  | error err => exact String.append_empty.symm
  | ok program => exact (accounted_runIn s.hosts fuel program s.store).traces.output_eq hstandard

/-- **A run comes to the same behind any text that was displayed before.** -/
theorem run_view (text source : String) :
    (s.view (text ++ ·)).run source = ((s.run source).1, (s.run source).2.view (text ++ ·)) := by
  unfold run runSource
  cases Program.parse source with
  | error err => rfl
  | ok program =>
    have hblind := blind_append hstandard text
    have hrun := (accounted_runIn s.hosts fuel program s.store).eq_seen hblind
    show keep _ (runIn s.hosts fuel program (s.store.view _)) = _
    rw [hrun]
    rfl

theorem writes_view (text source : String) :
    (s.view (text ++ ·)).writes source = s.writes source := by
  unfold writes
  cases Program.parse source with
  | error err => rfl
  | ok program =>
    exact congrArg written (performed_view (blind_append hstandard text) fuel program s.store)

end Session

end HostedLisp
