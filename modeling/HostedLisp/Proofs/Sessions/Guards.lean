import HostedLisp.Proofs.Evaluation.Steps
import HostedLisp.Proofs.Sessions.FirstFailure

/-!
# Guards and what they protect

Evaluation relies on checks that are made elsewhere. A body is entered without a look whether it has
an expression, since no procedure is made without one; special forms take operands from their
places, since their number was checked; and host functions take arguments from their places, since
a call with too few is refused. So there are failures that cannot happen, whatever is evaluated.

* `Form.readAt` -- special forms read by position, where a place can be out of range;
* `HostFunction.ReadsBelow` -- from some place on, the function does not look at arguments;
* `HostFunction.crashing` -- the function with anything at all for calls that lack an argument;
* `Store.Made` -- all procedures were made by `newProcedure`;
* `Action.Guarded` -- bodies are entered with an expression, and calls made with enough arguments;
* `guarded_actions` -- **all actions of an evaluation are guarded**;
* `internal_failures_unreachable` -- so the failures that the guards are to prevent do not happen.
-/

namespace HostedLisp

/-! ## 1. Operands by position -/

namespace Form

/-- The operands of `define` and `set!`: there must be two, which are taken from their places. -/
def bindingAt (k : Keyword) (operands : List Value) : Option (Except Error (String × Value)) :=
  if operands.length ≠ 2 then some (malformed k (.operandCount 2 2 operands.length))
  else do
    match ← operands[0]? with
    | .symbol name =>
      if (Keyword.ofName? name).isSome then return .error (.keywordReference name)
      else return .ok (name, ← operands[1]?)
    | target => return malformed k (.targetNotSymbol target.display)

/-- The items from a place on, which must not lie behind the end. -/
def sliceFrom (n : Nat) (operands : List Value) : Option (List Value) :=
  if n ≤ operands.length then some (operands.drop n) else none

/-- The special form of a keyword, with the operands counted first and then taken from their places.
    Nothing comes out if there is no such place. -/
def readAt (k : Keyword) (operands : List Value) : Option (Except Error Form) :=
  match k with
  | .define => do
    match ← bindingAt k operands with
    | .error err => return .error err
    | .ok (name, e) => return .ok (.define name e)
  | .assign => do
    match ← bindingAt k operands with
    | .error err => return .error err
    | .ok (name, e) => return .ok (.assign name e)
  | .branch =>
    if operands.length < 2 ∨ 3 < operands.length then
      some (malformed k (.operandCount 2 3 operands.length))
    else do return .ok (.branch (← operands[0]?) (← operands[1]?) operands[2]?)
  | .scope =>
    if operands.length < 2 then some (malformed k .missingBindings)
    else do
      let bindings ← operands[0]?
      if bindings.isList then return .ok (.scope bindings.items (← sliceFrom 1 operands))
      else return malformed k (.bindingsNotList bindings.display)
  -- the others take their operands apart and do not ask for a place
  | .quote | .lambda | .sequence => some (readSpecial k operands)

theorem bindingAt_eq (k : Keyword) (operands : List Value) :
    bindingAt k operands = some (readBinding k operands) := by
  rcases operands with _ | ⟨target, _ | ⟨e, _ | ⟨e', rest⟩⟩⟩
  · rfl
  · rfl
  · cases target with
    | symbol name =>
      cases hk : (Keyword.ofName? name).isSome <;> simp [bindingAt, readBinding, hk]
    | _ => rfl
  · simp [bindingAt, readBinding]

/-- **No operand is out of range**: reading by position comes to the form that is evaluated. -/
theorem readAt_eq (k : Keyword) (operands : List Value) :
    readAt k operands = some (readSpecial k operands) := by
  cases k with
  | define | assign =>
    simp only [readAt, readSpecial, bindingAt_eq]
    cases readBinding _ operands <;> rfl
  | branch =>
    rcases operands with _ | ⟨a, _ | ⟨b, _ | ⟨c, _ | ⟨d, rest⟩⟩⟩⟩
    · rfl
    · rfl
    · rfl
    · rfl
    · simp [readAt, readSpecial]
  | scope =>
    rcases operands with _ | ⟨bindings, _ | ⟨e, body⟩⟩
    · rfl
    · rfl
    · cases hlist : bindings.isList <;> simp [readAt, readSpecial, sliceFrom, hlist]
  | quote | lambda | sequence => rfl

/-- The body of a scope has an expression. -/
theorem ne_nil_of_read_scope {operator : Value} {operands bindings body : List Value}
    (h : read operator operands = .ok (.scope bindings body)) : body ≠ [] := by
  unfold read at h
  split at h
  · rename_i k _
    cases k with
    | scope =>
      simp only [readSpecial] at h
      split at h
      · split at h <;> cases h
        exact List.cons_ne_nil _ _
      · cases h
    | define | assign =>
      simp only [readSpecial] at h
      split at h <;> cases h
    | quote | branch | lambda | sequence =>
      simp only [readSpecial] at h
      repeat' split at h
      all_goals cases h
  · cases h

end Form

/-! ## 2. Arguments by position -/

namespace HostFunction

/-- The function does not look at arguments from the place `n` on. -/
def ReadsBelow (h : HostFunction) (n : Nat) : Prop := ∀ args w, h.run args w = h.run (args.take n) w

/-- The function, but doing anything at all if it lacks an argument. -/
def crashing (crash : List Value → Effects → Except Error Value × Effects) (h : HostFunction) :
    HostFunction :=
  { h with run := fun args w => if args.length < h.arity then crash args w else h.run args w }

/-- On a call with enough arguments this makes no difference. -/
theorem run_crashing (crash : List Value → Effects → Except Error Value × Effects)
    {h : HostFunction} {args : List Value} (harity : h.arity ≤ args.length) (w : Effects) :
    (h.crashing crash).run args w = h.run args w := if_neg (Nat.not_lt.2 harity)

end HostFunction

namespace Host

variable {name description : String}

theorem unary_readsBelow (f : Value → Except Error Value) :
    (unary name description f).ReadsBelow 1 := by
  rintro (_ | ⟨a, args⟩) w <;> rfl

theorem binary_readsBelow (f : Value → Value → Except Error Value) :
    (binary name description f).ReadsBelow 2 := by
  rintro (_ | ⟨a, _ | ⟨b, args⟩⟩) w <;> rfl

theorem cons_readsBelow : cons.ReadsBelow 2 := by
  rintro (_ | ⟨a, _ | ⟨b, args⟩⟩) w <;> rfl

/-- The standard host functions that ask for arguments read no others, and the three that ask for
    none take whatever they are given. -/
theorem readsBelow_of_mem_standard {h : HostFunction} (hh : h ∈ standard) :
    (0 < h.arity → h.ReadsBelow h.arity) ∧
      (h.arity = 0 → h = list ∨ h = stringAppend ∨ h = display) := by
  rcases shape_of_mem_standard hh with ⟨name, description, f, -, rfl⟩ |
    ⟨name, description, f, -, rfl⟩ | rfl | rfl | rfl | rfl
  · exact ⟨fun _ => unary_readsBelow f, nofun⟩
  · exact ⟨fun _ => binary_readsBelow f, nofun⟩
  · exact ⟨nofun, fun _ => .inl rfl⟩
  · exact ⟨fun _ => cons_readsBelow, nofun⟩
  · exact ⟨nofun, fun _ => .inr (.inl rfl)⟩
  · exact ⟨nofun, fun _ => .inr (.inr rfl)⟩

/-- With enough arguments a standard host function fails by refusing them, or exits. -/
theorem not_isInternal_of_run {h : HostFunction} (hh : h ∈ standard) {args : List Value}
    {w : Effects} {err : Error} (harity : h.arity ≤ args.length)
    (herr : (h.run args w).1 = .error err) : err.isInternal = false := by
  rcases refuses_of_mem_standard hh args w err harity herr with hrefusal | ⟨-, x, rest, -, rfl⟩
  · exact Error.not_isInternal_of_isRefusal hrefusal
  · rfl

/-- A host function that asks for no argument can read one: `list` answers with what it is given. -/
theorem list_reads_beyond_arity : list.arity = 0 ∧
    (list.run [.number 1.0] .initial).1 = .ok (.pair 0 (.number 1.0) .emptyList) ∧
    ¬ ∀ h ∈ standard, h.ReadsBelow h.arity := by
  have hrun : (list.run [.number 1.0] .initial).1 = .ok (.pair 0 (.number 1.0) .emptyList) := rfl
  refine ⟨rfl, hrun, fun hreads => ?_⟩
  have hnone : (list.run [.number 1.0] .initial).1 = .ok .emptyList :=
    congrArg Prod.fst (hreads list (by simp [standard]) [.number 1.0] .initial)
  rw [hrun] at hnone
  cases hnone

end Host

/-! ## 3. Procedures that were made -/

/-- The procedure is one that `newProcedure` makes. -/
def Procedure.Made (p : Procedure) : Prop :=
  ∃ (s s' : Store) (v : Value), s.newProcedure p.parameters p.body p.frame = .ok (v, s')

/-- All procedures of the store were made by `newProcedure`. -/
def Store.Made (s : Store) : Prop := ∀ p ∈ s.procedures, p.Made

/-- It makes no procedure without a body. -/
theorem Procedure.Made.body_ne_nil {p : Procedure} (h : p.Made) : p.body ≠ [] := by
  obtain ⟨s, s', v, hnew⟩ := h
  intro hbody
  rw [hbody] at hnew
  cases hnew

namespace Store

variable {s s' : Store}

theorem Made.of_procedures_eq (h : s.Made) (heq : s'.procedures = s.procedures) : s'.Made := by
  intro p hp
  rw [heq] at hp
  exact h p hp

theorem Made.newProcedure (h : s.Made) {parameters body : List Value} {f : Nat} {v : Value}
    (hnew : s.newProcedure parameters body f = .ok (v, s')) : s'.Made := by
  have hpush : s'.procedures = s.procedures.push ⟨parameters, body, f⟩ := by
    unfold Store.newProcedure at hnew
    split at hnew <;> cases hnew
    rfl
  intro p hp
  rw [hpush] at hp
  rcases Array.mem_push.1 hp with hold | rfl
  · exact h p hold
  · exact ⟨s, s', v, hnew⟩

end Store

namespace Eval

/-! ## 4. What one action keeps -/

/-- No action makes a procedure in another way. -/
theorem Action.made_perform (a : Action) {s : Store} (hs : s.Made) : (a.perform s).2.Made := by
  cases a with
  | set f x v => exact hs.of_procedures_eq (Store.procedures_set s f x v)
  | lambda parameters body f =>
    simp only [perform]
    split
    · exact hs
    · rename_i hnew
      exact hs.newProcedure hnew
  | bind p args =>
    simp only [perform, Store.bind]
    cases Store.argumentBindings p.parameters args with
    | error err => exact hs
    | ok bindings => exact hs
  | _ => exact hs

/-- The checks that come before an action were made: a body that is entered has an expression, and a
    host function that is called is a standard one and has its arguments. -/
def Action.Guarded : Action → Prop
  | body es => es ≠ []
  | call h args => h ∈ Host.standard ∧ h.arity ≤ args.length
  | _ => True

/-- A guarded action does not fail with an internal error. -/
theorem Action.not_isInternal {a : Action} (ha : a.Guarded) {s s' : Store} {err : Error}
    (h : a.perform s = (some err, s')) : err.isInternal = false := by
  rcases Action.error_cases h with ⟨-, -, hbody⟩ | ⟨k, args, rfl, hrun, -⟩
  · refine Bool.eq_false_iff.2 fun hinternal => ?_
    rw [hbody hinternal] at ha
    exact ha rfl
  · exact Host.not_isInternal_of_run ha.1 ha.2 hrun

/-! ## 5. What a run of actions keeps -/

theorem Traces.made {hosts : Host.Table} {s s' : Store} {as : List Action} {failure : Option Error}
    (h : Traces hosts s as failure s') (hs : s.Made) : s'.Made := by
  induction h with
  | nil => exact hs
  | @step s s₁ s' a as failure _ ha _ ih =>
    have hmade := a.made_perform hs
    rw [ha] at hmade
    exact ih hmade
  | @fails s s' a err _ ha =>
    have hmade := a.made_perform hs
    rw [ha] at hmade
    exact hmade

theorem Traces.not_isInternal {hosts : Host.Table} {s s' : Store} {as : List Action} {err : Error}
    (h : Traces hosts s as (some err) s') (has : ∀ a ∈ as, a.Guarded) : err.isInternal = false := by
  obtain ⟨before, last, s₁, rfl, -, -, hfails⟩ := h.exists_last
  exact Action.not_isInternal (has last (by simp)) hfails

theorem Accounted.made {α : Type} {hosts : Host.Table} {s : Store} {as : List Action}
    {R : Computation α} (h : Accounted hosts s as R) (hs : s.Made) : (R hosts s).2.Made :=
  h.traces.made hs

/-! ## 6. The actions of an evaluation are guarded -/

/-- The actions that follow a value. -/
theorem guarded_continuing {α : Type} {r : Result α} {next : α → Store → List Action}
    (hr : r.2.Made) (hnext : ∀ v s, s.Made → ∀ a ∈ next v s, a.Guarded) :
    ∀ a ∈ continuing r next, a.Guarded := by
  obtain ⟨outcome, s⟩ := r
  cases outcome with
  | value v => exact hnext v s hr
  | failure | unfinished => exact nofun

section Turns

variable {hosts : Host.Table} {fuel : Nat}
  (hlog : ∀ f e s, s.Made → ∀ a ∈ actions hosts fuel f e s, a.Guarded)

theorem made_eval (hosts : Host.Table) (fuel f : Nat) (e : Value) {s : Store} (hs : s.Made) :
    (eval hosts fuel f e s).2.Made :=
  (accounted_eval hosts fuel f e s).made hs

include hlog

theorem guarded_logEach (f : Nat) (es : List Value) {s : Store} (hs : s.Made) :
    ∀ a ∈ logEach (actions hosts fuel f) (eval hosts fuel f) es s, a.Guarded := by
  induction es generalizing s with
  | nil => exact nofun
  | cons e es ih =>
    exact List.forall_mem_append.2 ⟨hlog f e s hs,
      guarded_continuing (made_eval hosts fuel f e hs) fun _ _ h₁ => ih h₁⟩

theorem guarded_logLocals (f : Nat) (bs : List Value) {s : Store} (hs : s.Made) :
    ∀ a ∈ logLocals (actions hosts fuel f) (eval hosts fuel f) bs s, a.Guarded := by
  induction bs generalizing s with
  | nil => exact nofun
  | cons b bs ih =>
    have hread : (settled s (Form.readLocal b)).2.Made := by
      cases Form.readLocal b <;> exact hs
    refine List.forall_mem_cons.2 ⟨trivial, guarded_continuing hread fun p s₁ h₁ => ?_⟩
    exact List.forall_mem_append.2 ⟨hlog f p.2 s₁ h₁,
      guarded_continuing (made_eval hosts fuel f p.2 h₁) fun _ _ h₂ => ih h₂⟩

theorem guarded_logBody (f : Nat) {body : List Value} (hbody : body ≠ []) {s : Store}
    (hs : s.Made) : ∀ a ∈ logBody (actions hosts fuel) (eval hosts fuel) f body s, a.Guarded :=
  List.forall_mem_cons.2 ⟨hbody, guarded_logEach hlog f body.dropLast hs⟩

/-- Here the two guards stand: the arity is checked before a call, and the body of a procedure was
    checked when it was made. -/
theorem guarded_logApply (hstandard : ∀ h ∈ hosts, h ∈ Host.standard) (operator callee : Value)
    (args : List Value) {s : Store} (hs : s.Made) :
    ∀ a ∈ logApply hosts (actions hosts fuel) (eval hosts fuel) operator callee args s,
      a.Guarded := by
  have hlist : ∀ items, ∀ a ∈ [Action.list items], a.Guarded :=
    fun _ => List.forall_mem_singleton.2 trivial
  unfold logApply
  split
  · split
    · exact hlist _
    · rename_i h hid
      split
      · exact hlist _
      · refine List.forall_mem_cons.2 ⟨trivial, ?_⟩
        split
        · exact nofun
        · rename_i harity
          exact List.forall_mem_singleton.2
            ⟨hstandard h (Array.mem_of_getElem? hid), Nat.le_of_not_lt harity⟩
  · split
    · exact hlist _
    · rename_i p hp
      refine List.forall_mem_cons.2 ⟨trivial, ?_⟩
      unfold Store.bind
      cases Store.argumentBindings p.parameters args with
      | error err => exact nofun
      | ok bindings =>
        have hbody : p.body ≠ [] := (hs p (Array.mem_of_getElem? hp)).body_ne_nil
        exact guarded_logBody hlog _ hbody hs
  · exact hlist _

theorem guarded_logForm (hstandard : ∀ h ∈ hosts, h ∈ Host.standard) (f : Nat) {form : Form}
    (hform : ∀ bindings body, form = .scope bindings body → body ≠ []) {s : Store}
    (hs : s.Made) :
    ∀ a ∈ logForm hosts (actions hosts fuel) (eval hosts fuel) f form s, a.Guarded := by
  have heach : ∀ es {s : Store}, s.Made → (evalEach (eval hosts fuel f) es s).2.Made :=
    fun es s hs => (accounted_evalEach (fun e s => accounted_eval hosts fuel f e s) es s).made hs
  have hset : ∀ x e, ∀ a ∈ actions hosts fuel f e s ++
      continuing (eval hosts fuel f e s) fun v _ => [.set f x v], a.Guarded :=
    fun x e => List.forall_mem_append.2 ⟨hlog f e s hs,
      guarded_continuing (made_eval hosts fuel f e hs) fun _ _ _ =>
        List.forall_mem_singleton.2 trivial⟩
  cases form with
  | constant e => exact nofun
  | define x e => exact hset x e
  | assign x e =>
    refine List.forall_mem_cons.2 ⟨trivial, ?_⟩
    split
    · exact hset x e
    · exact nofun
  | lambda parameters body => exact List.forall_mem_singleton.2 trivial
  | branch test consequent alternative => exact hlog f test s hs
  | sequence body =>
    simp only [logForm]
    split
    · exact nofun
    · rename_i hempty
      exact guarded_logBody hlog f (fun hbody => hempty (by rw [hbody]; rfl)) hs
  | scope bindings body =>
    have hlocals : (evalLocals (eval hosts fuel f) bindings s).2.Made :=
      (accounted_evalLocals (fun e s => accounted_eval hosts fuel f e s) bindings s).made hs
    refine List.forall_mem_append.2 ⟨guarded_logLocals hlog f bindings hs,
      guarded_continuing hlocals fun locals s₁ h₁ => List.forall_mem_cons.2 ⟨trivial, ?_⟩⟩
    exact guarded_logBody hlog _ (hform bindings body rfl) h₁
  | application operator operands =>
    refine List.forall_mem_append.2 ⟨hlog f operator s hs,
      guarded_continuing (made_eval hosts fuel f operator hs) fun callee s₁ h₁ => ?_⟩
    exact List.forall_mem_append.2 ⟨guarded_logEach hlog f operands h₁,
      guarded_continuing (heach operands h₁) fun args s₂ h₂ =>
        guarded_logApply hlog hstandard operator callee args h₂⟩

theorem guarded_logTurn (hstandard : ∀ h ∈ hosts, h ∈ Host.standard) (f : Nat) (e : Value)
    {s : Store} (hs : s.Made) :
    ∀ a ∈ logTurn hosts (actions hosts fuel) (eval hosts fuel) f e s, a.Guarded := by
  cases e with
  | pair c operator rest =>
    refine List.forall_mem_cons.2 ⟨trivial, ?_⟩
    split
    · exact nofun
    · rename_i form hread
      refine guarded_logForm hlog hstandard f (fun bindings body hscope => ?_) hs
      rw [hscope] at hread
      exact Form.ne_nil_of_read_scope hread
  | _ => exact List.forall_mem_singleton.2 trivial

end Turns

/-- **All actions of an evaluation are guarded**, if its procedures were made by `newProcedure` and
    its host functions are standard ones. By induction on the fuel, turn by turn. -/
theorem guarded_actions {hosts : Host.Table} (hstandard : ∀ h ∈ hosts, h ∈ Host.standard)
    (fuel f : Nat) (e : Value) {s : Store} (hs : s.Made) :
    ∀ a ∈ actions hosts fuel f e s, a.Guarded := by
  induction fuel generalizing f e s with
  | zero => exact nofun
  | succ fuel ih =>
    have hlog : ∀ f e s, s.Made → ∀ a ∈ actions hosts fuel f e s, a.Guarded :=
      fun f e s hs => ih f e hs
    have hturn : AccountedTurn hosts s (logTurn hosts (actions hosts fuel) (eval hosts fuel) f e s)
        fun hosts s => turn hosts (eval hosts fuel) f e s :=
      accounted_turn (fun f e s => accounted_eval hosts fuel f e s) f e s
    rw [actions_succ]
    refine List.forall_mem_append.2 ⟨guarded_logTurn hlog hstandard f e hs,
      guarded_continuing (Accounted.made hturn hs) fun next s₁ h₁ => ?_⟩
    cases next with
    | inl v => exact nofun
    | inr onward => exact hlog onward.1 onward.2 s₁ h₁

/-! ## 7. What is out of reach -/

/-- **Internal failures are unreachable.** For every store whose procedures were made by
    `newProcedure`, every expression, frame and fuel, with host functions that are standard ones,
    and the list of the actions of the evaluation:

    * no body without an expression is entered, and the failure for that is never returned; the
      procedures of the store that is left were made by `newProcedure` again;
    * reading special forms by position comes to the forms that are evaluated, whatever the
      operands, so that no place is out of range;
    * a host function that is called is given as many arguments as its arity says; so it makes no
      difference what it does with fewer, and the failure for a lacking argument is never returned;
    * each of the 25 standard host functions that asks for arguments reads no others than those, and
      `list`, `string-append` and `display`, which ask for none, take whatever they are given; with
      enough arguments none of them lacks one. -/
theorem internal_failures_unreachable {hosts : Host.Table}
    (hstandard : ∀ h ∈ hosts, h ∈ Host.standard) {s : Store} (hs : s.Made) (fuel f : Nat)
    (e : Value) :
    let as := actions hosts fuel f e s
    let r := eval hosts fuel f e s
    ((∀ body, .body body ∈ as → body ≠ []) ∧ r.1 ≠ .failure (.runtime .emptySequence) ∧
      r.2.Made) ∧
    (∀ k operands, Form.readAt k operands = some (Form.readSpecial k operands)) ∧
    ((∀ h args, .call h args ∈ as → h ∈ Host.standard ∧ h.arity ≤ args.length) ∧
      (∀ crash, eval (hosts.map (·.crashing crash)) fuel f e s = r) ∧
      r.1 ≠ .failure (.runtime .missingArgument)) ∧
    Host.standard.length = 25 ∧
    ∀ h ∈ Host.standard, (0 < h.arity → h.ReadsBelow h.arity) ∧
      (h.arity = 0 → h = Host.list ∨ h = Host.stringAppend ∨ h = Host.display) ∧
      ∀ args w, h.arity ≤ args.length → (h.run args w).1 ≠ Host.missing := by
  intro as r
  have haccounted : Accounted hosts s as fun hosts s => eval hosts fuel f e s :=
    accounted_eval hosts fuel f e s
  have hguarded : ∀ a ∈ as, a.Guarded := guarded_actions hstandard fuel f e hs
  have hfailure : ∀ err, r.1 = .failure err → err.isInternal = false := by
    intro err hr
    have htraces : Traces hosts s as (failure? r.1) r.2 := haccounted.traces
    rw [hr] at htraces
    exact htraces.not_isInternal hguarded
  have hcalls : ∀ h args, .call h args ∈ as → h ∈ Host.standard ∧ h.arity ≤ args.length :=
    fun h args hcall => hguarded _ hcall
  refine ⟨⟨fun body hbody => hguarded _ hbody, fun hr => ?_, made_eval hosts fuel f e hs⟩,
    Form.readAt_eq, ⟨hcalls, fun crash => ?_, fun hr => ?_⟩, rfl, fun h hh => ?_⟩
  · cases hfailure _ hr
  · -- the other host functions answer all calls that are made as these do
    refine haccounted.depends id _ fun i => ?_
    rw [Array.getElem?_map]
    cases hosts[i]? with
    | none => exact .none
    | some h =>
      exact .some ⟨rfl, rfl, fun args hcall w => h.run_crashing crash (hcalls h args hcall).2 w⟩
  · cases hfailure _ hr
  · obtain ⟨hreads, hnone⟩ := Host.readsBelow_of_mem_standard hh
    refine ⟨hreads, hnone, fun args w harity hmissing => ?_⟩
    cases Host.not_isInternal_of_run hh harity hmissing

set_option maxRecDepth 2000 in
/-- A procedure without parameters, whose body has a sequence and a scope that are as short as can
    be, is called in an operand of `cons`, which has a third operand that it does not read. -/
theorem internal_failures_unreachable_nested :
    let hosts := Session.standard.hosts
    let call : Datum := .ofItems [.ofItems [.symbol "lambda", .emptyList,
      .ofItems [.symbol "begin"], .ofItems [.symbol "let", .emptyList, .ofItems [.symbol "list"]]]]
    let program : Datum := .ofItems [.symbol "cons", .number 1.0, call, .number 2.0]
    let e := (Session.standard.store.label program).1
    let s := (Session.standard.store.label program).2
    (∀ h ∈ hosts, h ∈ Host.standard) ∧ s.Made ∧
      (eval hosts 9 0 e s).1 = .value (.pair 14 (.number 1.0) .emptyList) ∧
      (∀ h args, .call h args ∈ actions hosts 9 0 e s →
        h ∈ Host.standard ∧ h.arity ≤ args.length) ∧
      (eval hosts 9 0 e s).2.Made := by
  intro hosts call program e s
  have hstandard : ∀ h ∈ hosts, h ∈ Host.standard := fun h => Session.mem_standard_of_mem_hosts
  have hmade : s.Made := nofun
  have hresult : (eval hosts 9 0 e s).1 = .value (.pair 14 (.number 1.0) .emptyList) := rfl
  obtain ⟨⟨-, -, hleft⟩, -, ⟨hcalls, -⟩, -⟩ :=
    internal_failures_unreachable hstandard hmade 9 0 e
  exact ⟨hstandard, hmade, hresult, hcalls, hleft⟩

end Eval

end HostedLisp
