import HostedLisp.Proofs.Evaluation.Calls
import HostedLisp.Proofs.Sessions.WellFormed

/-!
# The first failure ends a run

A run is the actions of its expressions, one after the other. With the standard host functions, an
action that fails leaves the store as it is; and since nothing follows a failure, the run ends with
that failure and with that store. The exit of a program is such a failure: nothing intercepts it.

* `executed`, `performed` -- the actions of a run of values, and of a run of data;
* `accounted_executeIn`, `accounted_runIn` -- runs are accounted for by their actions;
* `Action.error_cases` -- how actions fail;
* `Action.failure_cases` -- how they do with the standard host functions;
* `executeIn_ends_at_failure` -- **the first failure ends a run, and an exit is the call of `exit`
  that ends it**.
-/

namespace HostedLisp

/-! ## 1. The actions of a run -/

namespace Session

open Eval

/-- The actions of running values as a program. -/
def executed (hosts : Host.Table) (fuel : Nat) (program : List Value) (s : Store) : List Action :=
  logEach (actions hosts fuel globalFrame) (eval hosts fuel globalFrame) program s

/-- The actions of evaluating a datum: its pairs get cells first. -/
def logDatum (hosts : Host.Table) (fuel : Nat) (e : Datum) (s : Store) : List Action :=
  .label e :: actions hosts fuel globalFrame (s.label e).1 (s.label e).2

/-- The actions of running a program that was read. -/
def performed (hosts : Host.Table) (fuel : Nat) (program : List Datum) (s : Store) : List Action :=
  logEach (logDatum hosts fuel) (evalDatum hosts fuel) program s

/-- Doing something with each element in turn is accounted for, if each of it is. -/
theorem accounted_inTurn {α : Type} {hosts : Host.Table} {log : α → Store → List Action}
    {step : Host.Table → α → Store → Result Value}
    (hstep : ∀ a s, Accounted hosts s (log a s) fun hosts s => step hosts a s)
    (last : Value) (as : List α) (s : Store) :
    Accounted hosts s (logEach log (step hosts) as s)
      fun hosts s => inTurn (step hosts) last as s := by
  induction as generalizing last s with
  | nil => exact accounted_value last
  | cons a as ih => exact (hstep a s).andThen fun v s₁ _ => ih v s₁

theorem accounted_executeIn (hosts : Host.Table) (fuel : Nat) (program : List Value) (s : Store) :
    Accounted hosts s (executed hosts fuel program s)
      fun hosts s => executeIn hosts fuel program s :=
  accounted_inTurn (fun e s => accounted_eval hosts fuel globalFrame e s) _ program s

theorem accounted_evalDatum (hosts : Host.Table) (fuel : Nat) (e : Datum) (s : Store) :
    Accounted hosts s (logDatum hosts fuel e s) fun hosts s => evalDatum hosts fuel e s := by
  have heval := accounted_eval hosts fuel globalFrame (s.label e).1 (s.label e).2
  have hlabel := Accounted.cons (a := .label e) (k := fun s => (s.label e).2) trivial rfl
    (fun _ => rfl) heval
  -- the cells depend on how many were taken, and not on what was displayed
  exact ⟨hlabel.traces, hlabel.depends⟩

theorem accounted_runIn (hosts : Host.Table) (fuel : Nat) (program : List Datum) (s : Store) :
    Accounted hosts s (performed hosts fuel program s)
      fun hosts s => runIn hosts fuel program s :=
  accounted_inTurn (fun e s => accounted_evalDatum hosts fuel e s) _ program s

end Session

namespace Eval

/-! ## 2. How actions fail -/

theorem errorOf_eq_some_iff {α : Type} {x : Except Error α} {err : Error} :
    errorOf x = some err ↔ x = .error err := by
  cases x <;> simp [errorOf]

/-- How actions fail. An action that is no call leaves the store as it is, and its failure is
    internal only if it enters a body without expressions; a call fails as the host function does. -/
theorem Action.error_cases {a : Action} {s s' : Store} {err : Error}
    (h : a.perform s = (some err, s')) :
    (s' = s ∧ err.kind = .runtime ∧ (err.isInternal = true → a = .body [])) ∨
      ∃ k args, a = .call k args ∧ (k.run args s.effects).1 = .error err ∧
        s' = s.withEffects (k.run args s.effects).2 := by
  have hrefusal : err.isRefusal = true →
      err.kind = .runtime ∧ (err.isInternal = true → a = .body []) := by
    intro hr
    refine ⟨Error.kind_of_isComplaint (Error.isComplaint_of_isRefusal hr), fun hinternal => ?_⟩
    rw [Error.not_isInternal_of_isRefusal hr] at hinternal
    cases hinternal
  have hcheck : ∀ {β : Type} {x : Except Error β},
      (∀ {err}, x = .error err → err.isRefusal = true) → (errorOf x, s) = (some err, s') →
      s' = s ∧ err.kind = .runtime ∧ (err.isInternal = true → a = .body []) := by
    intro β x hx hperform
    obtain ⟨herr, rfl⟩ := Prod.mk.inj hperform
    exact ⟨rfl, hrefusal (hx (errorOf_eq_some_iff.1 herr))⟩
  cases a with
  | lookup f x => exact .inl (hcheck isRefusal_of_evalSymbol h)
  | form operator operands => exact .inl (hcheck Form.isRefusal_of_read h)
  | binding b => exact .inl (hcheck Form.isRefusal_of_readLocal h)
  | accept e =>
    simp only [perform] at h
    split at h <;> cases h
    exact .inl ⟨rfl, rfl, fun hinternal => by cases hinternal⟩
  | assignable f x | arity k args =>
    simp only [perform] at h
    split at h <;> cases h
    exact .inl ⟨rfl, hrefusal rfl⟩
  | body es =>
    simp only [perform] at h
    split at h <;> cases h
    rename_i hempty
    exact .inl ⟨rfl, rfl, fun _ => congrArg _ (List.isEmpty_iff.1 hempty)⟩
  | set f x v => cases h
  | scope f bindings => cases h
  | label e => cases h
  | lambda parameters es f =>
    have herr : ∀ {err}, s.newProcedure parameters es f = .error err → err.isRefusal = true := by
      intro err hnew
      unfold Store.newProcedure at hnew
      split at hnew <;> cases hnew
      rfl
    simp only [perform] at h
    split at h <;> cases h
    rename_i hnew
    exact .inl ⟨rfl, hrefusal (herr hnew)⟩
  | bind p args =>
    have herr : ∀ {err}, s.bind p args = .error err → err.isRefusal = true := by
      intro err hbind
      unfold Store.bind at hbind
      split at hbind <;> cases hbind
      rename_i hbindings
      exact Store.isRefusal_of_argumentBindings hbindings
    simp only [perform] at h
    split at h <;> cases h
    rename_i hbind
    exact .inl ⟨rfl, hrefusal (herr hbind)⟩
  | list items =>
    obtain ⟨herr, rfl⟩ := Prod.mk.inj h
    have hlist : (Effects.list items s.effects).1 = .error err := errorOf_eq_some_iff.1 herr
    have hsame : (Effects.list items s.effects).2 = s.effects :=
      (Host.list_orderly.failure items s.effects err hlist).1
    refine .inl ⟨?_, hrefusal (Effects.isRefusal_of_list hlist)⟩
    show s.withEffects (Effects.list items s.effects).2 = s
    rw [hsame]
    rfl
  | call k args =>
    obtain ⟨herr, rfl⟩ := Prod.mk.inj h
    exact .inr ⟨k, args, rfl, errorOf_eq_some_iff.1 herr, rfl⟩

/-- **How actions fail with the standard host functions.** An action that fails leaves the store as
    it is, and its failure is an error of the program, or the action is a call of `exit` with a
    number. -/
theorem Action.failure_cases {hosts : Host.Table} (hstandard : ∀ h ∈ hosts, h ∈ Host.standard)
    {a : Action} (hlawful : a.Lawful hosts) {s s' : Store} {err : Error}
    (h : a.perform s = (some err, s')) :
    s' = s ∧ (err.kind = .runtime ∨
      ∃ x rest, a = .call Host.exit (.number x :: rest) ∧ err = .exit x.toInt32) := by
  rcases Action.error_cases h with ⟨hsame, hkind, -⟩ | ⟨k, args, rfl, hrun, rfl⟩
  · exact ⟨hsame, .inl hkind⟩
  · have horderly : k.Orderly := Host.orderly_of_mem_standard (hstandard k hlawful.1)
    obtain ⟨hsame, hcases⟩ := horderly.failure args s.effects err hrun
    constructor
    · rw [hsame]
      rfl
    · rcases hcases with hcomplaint | ⟨rfl, x, rest, rfl, rfl⟩
      · exact .inl (Error.kind_of_isComplaint hcomplaint)
      · exact .inr ⟨x, rest, rfl, rfl⟩

theorem failure?_eq_some_iff {α : Type} {o : Outcome α} {err : Error} :
    failure? o = some err ↔ o = .failure err := by
  cases o <;> simp [failure?]

/-! ## 3. Traces taken apart -/

/-- The actions lead from the first store to the second, and all of them succeed. -/
def Passes (hosts : Host.Table) (s : Store) (as : List Action) (s' : Store) : Prop :=
  Traces hosts s as none s'

/-- An action has its turn when all before it have succeeded. If it fails, it is the last. -/
theorem Traces.split {hosts : Host.Table} {s s' : Store} {before after : List Action} {a : Action}
    {failure : Option Error} (h : Traces hosts s (before ++ a :: after) failure s') :
    ∃ s₁, Passes hosts s before s₁ ∧ a.Lawful hosts ∧
      ∀ err s₂, a.perform s₁ = (some err, s₂) → after = [] ∧ failure = some err ∧ s₂ = s' := by
  induction before generalizing s with
  | nil =>
    cases h with
    | step hlawful ha _ =>
      refine ⟨s, .nil s, hlawful, fun err s₂ hfails => ?_⟩
      rw [ha] at hfails
      cases hfails
    | fails hlawful ha =>
      refine ⟨s, .nil s, hlawful, fun err s₂ hfails => ?_⟩
      rw [ha] at hfails
      cases hfails
      exact ⟨rfl, rfl, rfl⟩
  | cons b before ih =>
    rw [List.cons_append] at h
    generalize hrest : before ++ a :: after = rest at h
    cases h with
    | step hb ha has =>
      rw [← hrest] at has
      obtain ⟨s₁, hpasses, hturn⟩ := ih has
      exact ⟨s₁, .step hb ha hpasses, hturn⟩
    | fails hb ha => simp at hrest

/-- What fails has failed with its last action. -/
theorem Traces.exists_last {hosts : Host.Table} {s s' : Store} {as : List Action} {err : Error}
    (h : Traces hosts s as (some err) s') :
    ∃ before last s₁, as = before ++ [last] ∧ Passes hosts s before s₁ ∧ last.Lawful hosts ∧
      last.perform s₁ = (some err, s') := by
  generalize hfailure : some err = failure at h
  induction h with
  | nil => cases hfailure
  | @step s s₁ s' a as failure hlawful ha _ ih =>
    obtain ⟨before, last, s₂, rfl, hpasses, hlast⟩ := ih hfailure
    exact ⟨a :: before, last, s₂, rfl, .step hlawful ha hpasses, hlast⟩
  | @fails s s' a err' hlawful ha =>
    cases hfailure
    exact ⟨[], a, s, rfl, .nil s, hlawful, ha⟩

end Eval

/-! ## 4. The first failure -/

namespace Session

open Eval

/-- **The first failure ends a run.** With the standard host functions, for every program, store and
    fuel, and the list of the lookups, checks, host calls and writes that running it consists of:

    * when an action has its turn, all actions before it have succeeded, and if it fails, it is the
      last one, and the run returns exactly its failure and leaves the store as it was then;
    * a run that fails has failed with its last action;
    * a run that returns an exit has as its last action a call of `exit` whose first argument is a
      number with that status;
    * if the run does not fail, all its actions succeed, and lead to the store that it leaves;
    * no host call is missing from the list: with host functions that answer the calls in the list
      alike, and others in any other way, the run is the same. -/
theorem executeIn_ends_at_failure {hosts : Host.Table}
    (hstandard : ∀ h ∈ hosts, h ∈ Host.standard) (fuel : Nat) (program : List Value) (s : Store) :
    let as := executed hosts fuel program s
    let r := executeIn hosts fuel program s
    (∀ before a after, as = before ++ a :: after → ∃ s₁, Passes hosts s before s₁ ∧
      ∀ err s₂, a.perform s₁ = (some err, s₂) → after = [] ∧ r = (.failure err, s₁)) ∧
    (∀ err, r.1 = .failure err → ∃ before last, as = before ++ [last] ∧
      Passes hosts s before r.2 ∧ last.perform r.2 = (some err, r.2)) ∧
    (∀ c, r.1 = .failure (.exit c) → ∃ before x rest,
      as = before ++ [.call Host.exit (.number x :: rest)] ∧ x.toInt32 = c) ∧
    ((∀ err, r.1 ≠ .failure err) → Passes hosts s as r.2) ∧
    ∀ hosts', Matches id as hosts hosts' → executeIn hosts' fuel program s = r := by
  intro as r
  have haccounted : Accounted hosts s as fun hosts s => executeIn hosts fuel program s :=
    accounted_executeIn hosts fuel program s
  have htraces : Traces hosts s as (failure? r.1) r.2 := haccounted.traces
  have hlast : ∀ err, r.1 = .failure err → ∃ before last, as = before ++ [last] ∧
      Passes hosts s before r.2 ∧ last.Lawful hosts ∧ last.perform r.2 = (some err, r.2) := by
    intro err hfailure
    rw [hfailure] at htraces
    obtain ⟨before, last, s₁, has, hpasses, hlawful, hfails⟩ := htraces.exists_last
    have hsame : r.2 = s₁ := (Action.failure_cases hstandard hlawful hfails).1
    rw [← hsame] at hpasses hfails
    exact ⟨before, last, has, hpasses, hlawful, hfails⟩
  refine ⟨fun before a after has => ?_, fun err hfailure => ?_, fun c hexit => ?_,
    fun hvalue => ?_, fun hosts' hmatches => ?_⟩
  · rw [has] at htraces
    obtain ⟨s₁, hpasses, hlawful, hturn⟩ := htraces.split
    refine ⟨s₁, hpasses, fun err s₂ hfails => ?_⟩
    obtain ⟨hend, hfailure, hstore⟩ := hturn err s₂ hfails
    have hsame : s₂ = s₁ := (Action.failure_cases hstandard hlawful hfails).1
    exact ⟨hend, Prod.ext (failure?_eq_some_iff.1 hfailure) (hstore.symm.trans hsame)⟩
  · obtain ⟨before, last, has, hpasses, -, hfails⟩ := hlast err hfailure
    exact ⟨before, last, has, hpasses, hfails⟩
  · obtain ⟨before, last, has, -, hlawful, hfails⟩ := hlast _ hexit
    obtain ⟨-, hkind | ⟨x, rest, hcall, hcode⟩⟩ :=
      Action.failure_cases hstandard hlawful hfails
    · cases hkind
    · cases hcode
      exact ⟨before, x, rest, hcall ▸ has, rfl⟩
  · have hnone : failure? r.1 = none := by
      cases hf : failure? r.1 with
      | none => rfl
      | some err => exact absurd (failure?_eq_some_iff.1 hf) (hvalue err)
    rw [hnone] at htraces
    exact htraces
  · exact haccounted.depends id hosts' hmatches

set_option maxRecDepth 2000 in
/-- An exit in the body of a procedure that is an operand: neither the rest of the body, nor the
    call that waits for the operand, nor the next expression has its turn. -/
theorem executeIn_ends_at_failure_nested :
    let hosts := standard.hosts
    let call : Datum := .ofItems [.symbol "display", .ofItems [.ofItems [.symbol "lambda",
      .ofItems [.symbol "x"], .ofItems [.symbol "exit", .symbol "x"],
      .ofItems [.symbol "display", .symbol "x"]], .number 3.5]]
    let program : List Value := [(call.label 0).1, .symbol "late"]
    (∀ h ∈ hosts, h ∈ Host.standard) ∧
      (executeIn hosts 9 program standard.store).1
        = .failure (.exit (3.5 : Float).toInt32) ∧
      ∃ before x rest, executed hosts 9 program standard.store
          = before ++ [.call Host.exit (.number x :: rest)] ∧
        x.toInt32 = (3.5 : Float).toInt32 := by
  intro hosts call program
  have hstandard : ∀ h ∈ hosts, h ∈ Host.standard := fun h => mem_standard_of_mem_hosts
  have hexit : (executeIn hosts 9 program standard.store).1
      = .failure (.exit (3.5 : Float).toInt32) := rfl
  have hends := executeIn_ends_at_failure hstandard 9 program standard.store
  exact ⟨hstandard, hexit, hends.2.2.1 _ hexit⟩

end Session

end HostedLisp
