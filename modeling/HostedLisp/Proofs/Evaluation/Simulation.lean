import HostedLisp.Eval.Fuel
import HostedLisp.Proofs.Evaluation.Complaints
import HostedLisp.Proofs.Evaluation.Uniform
import HostedLisp.Store.Lemmas

/-!
# Two evaluations side by side

Two evaluations go the same way if what one finds in its store the other finds in its own: the same
values, up to the numbers of procedures, under the same names, seen from the frames that stand for
each other. A `Simulation` says which stores, frames and procedures correspond and which expressions
are evaluated. Whether it is kept is a matter of the few things that evaluation does
(`Simulation.Kept`), and then both evaluations take the same turns, come to corresponding values or
to the same failure, and are unfinished together.

* `Form.evaluated` -- the expressions that a form evaluates;
* `Raised` -- the failures that an evaluation can come to;
* `Simulation`, `Simulation.Kept` -- a correspondence, and that all that evaluation does keeps it;
* `Kept.turn` -- then the two take corresponding turns, if their evaluators correspond;
* `Kept.eval` -- **then all evaluations correspond**, with the same fuel.
-/

namespace HostedLisp

/-! ## 1. What forms evaluate and bind -/

namespace Form

/-- The expressions that a form evaluates, at once or when the procedure that it makes is applied.
    What is quoted and what is a parameter is not among them. -/
def evaluated : Form → List Value
  | .constant _ => []
  | .define _ e | .assign _ e => [e]
  | .lambda _ body => body
  | .branch test consequent alternative => test :: consequent :: alternative.toList
  | .sequence body => body
  | .scope bindings body =>
    bindings.filterMap (fun b => (readLocal b).toOption.map Prod.snd) ++ body
  | .application operator operands => operator :: operands

/-- Some code reads as the form. -/
def ReadFrom (code : Value → Prop) (form : Form) : Prop :=
  ∃ c a b, code (.pair c a b) ∧ read a b.items = .ok form

theorem mem_evaluated_of_readLocal {bindings body : List Value} {b e : Value} {x : String}
    (hb : b ∈ bindings) (h : readLocal b = .ok (x, e)) : e ∈ (scope bindings body).evaluated :=
  List.mem_append_left _ (List.mem_filterMap.2 ⟨b, hb, by rw [h]; rfl⟩)

theorem readBinding_ordinary {k : Keyword} {operands : List Value} {x : String} {e : Value}
    (h : readBinding k operands = .ok (x, e)) : Keyword.ofName? x = none := by
  unfold readBinding at h
  split at h
  · split at h
    · split at h
      · cases h
      · rename_i hx
        cases h
        exact Option.not_isSome_iff_eq_none.1 hx
    · cases h
  · cases h

theorem readLocal_ordinary {b : Value} {x : String} {e : Value} (h : readLocal b = .ok (x, e)) :
    Keyword.ofName? x = none := by
  unfold readLocal at h
  split at h
  · split at h
    · cases h
    · rename_i hx
      cases h
      exact Option.not_isSome_iff_eq_none.1 hx
  · cases h

/-- No form defines or sets a keyword. -/
theorem read_ordinary {operator : Value} {operands : List Value} {form : Form} {x : String}
    {e : Value} (h : read operator operands = .ok form)
    (hform : form = .define x e ∨ form = .assign x e) : Keyword.ofName? x = none := by
  unfold read at h
  split at h
  · rename_i k _
    cases k with
    | define | assign =>
      simp only [readSpecial] at h
      split at h
      · cases h
      · rename_i hread
        cases h
        rcases hform with hform | hform <;> cases hform
        exact readBinding_ordinary hread
    | quote | lambda | branch | sequence | scope =>
      simp only [readSpecial] at h
      repeat' split at h
      all_goals cases h
      all_goals rcases hform with hform | hform <;> cases hform
  · cases h
    rcases hform with hform | hform <;> cases hform

end Form

/-! ## 2. Failures -/

/-- Whether the error is that a value which is no expression was to be evaluated. -/
def Error.isIllegal : Error → Bool
  | .illegalExpression _ => true
  | _ => false

/-- All other errors. -/
def Error.Ordinary (err : Error) : Prop := err.isIllegal = false

theorem Error.ordinary_of_isComplaint {err : Error} (h : err.isComplaint = true) :
    err.Ordinary := by
  cases err <;> first | exact rfl | cases h

namespace Eval

/-- The failures that the evaluation of code can come to: one of its expressions is no expression,
    a host function fails, or something else goes wrong. -/
inductive Raised (hosts : Host.Table) (code : Value → Prop) : Error → Prop where
  | ordinary {err : Error} (h : err.Ordinary) : Raised hosts code err
  | illegal {e : Value} (hcode : code e) (he : e.isExpression = false) :
      Raised hosts code (.illegalExpression e.display)
  | host {h : HostFunction} {args : List Value} {w : Effects} {err : Error} (hh : h ∈ hosts)
      (hr : (h.run args w).1 = .error err) : Raised hosts code err

theorem Raised.complaint {hosts : Host.Table} {code : Value → Prop} {err : Error}
    (h : err.isComplaint = true) : Raised hosts code err :=
  .ordinary (Error.ordinary_of_isComplaint h)

end Eval

/-! ## 3. Simulations -/

/-- The outcome with its value changed. -/
def Outcome.map {α β : Type} (g : α → β) : Outcome α → Outcome β
  | .value a => .value (g a)
  | .failure e => .failure e
  | .unfinished => .unfinished

@[simp] theorem Outcome.map_id {α : Type} (o : Outcome α) : o.map id = o := by cases o <;> rfl

/-- The procedure with other numbers for the procedures in it and for its frame. -/
def Procedure.rename (r frame : Nat → Nat) (p : Procedure) : Procedure :=
  ⟨p.parameters.map (.rename r), p.body.map (.rename r), frame p.frame⟩

@[simp] theorem Procedure.rename_id : Procedure.rename id id = id := by
  funext p
  simp [Procedure.rename]

namespace Eval

/-- A correspondence between two evaluations. -/
structure Simulation where
  /-- The numbers in the second one of the procedures of the first. -/
  procedure : Nat → Nat
  /-- The frames of the second one that those of the first stand for. -/
  frame : Nat → Nat
  /-- The stores that correspond. -/
  store : Store → Store → Prop
  /-- The frames in which expressions are evaluated. -/
  live : Store → Nat → Prop
  /-- The expressions that are evaluated. -/
  code : Value → Prop

namespace Simulation

/-- The stores still correspond, and what was live with `s` still is. -/
structure Goes (S : Simulation) (s s₁ s₁' : Store) : Prop where
  store : S.store s₁ s₁'
  live : ∀ f, S.live s f → S.live s₁ f

/-- A frame inside `f` can be made in both stores. -/
structure Enters (S : Simulation) (s s' : Store) (f : Nat) (bindings : Bindings) : Prop where
  goes : S.Goes s (s.newFrame (some f) bindings).2
    (s'.newFrame (some (S.frame f)) (bindings.rename S.procedure)).2
  frame : S.frame s.frames.size = s'.frames.size
  live : S.live (s.newFrame (some f) bindings).2 s.frames.size

/-- Everything that evaluation does keeps the correspondence. -/
structure Kept (S : Simulation) (hosts : Host.Table) : Prop where
  /-- What a form of code evaluates is code. -/
  evaluated : ∀ {form}, Form.ReadFrom S.code form → ∀ q ∈ form.evaluated, S.code q
  host : ∀ h ∈ hosts, h.Respects S.procedure
  effects : ∀ {s s'}, S.store s s' → s'.effects = s.effects
  perform : ∀ {s s'} (w : Effects), S.store s s' → S.Goes s (s.withEffects w) (s'.withEffects w)
  lookup : ∀ {s s' f}, S.store s s' → S.live s f → ∀ x,
    s'.get? (S.frame f) x = (s.get? f x).map (.rename S.procedure)
  /-- Names that are defined and set are no keywords. -/
  set : ∀ {s s' f x} (v : Value), S.store s s' → S.live s f → Keyword.ofName? x = none →
    S.Goes s (s.set f x v) (s'.set (S.frame f) x (v.rename S.procedure))
  lambda : ∀ {s s' f parameters body}, S.store s s' → S.live s f →
    Form.ReadFrom S.code (.lambda parameters body) → body ≠ [] →
    S.Goes s { s with procedures := s.procedures.push ⟨parameters, body, f⟩ }
      { s' with procedures :=
          s'.procedures.push (Procedure.rename S.procedure S.frame ⟨parameters, body, f⟩) } ∧
      S.procedure s.procedures.size = s'.procedures.size
  procedure : ∀ {s s'}, S.store s s' → ∀ id,
    s'.procedures[S.procedure id]? = s.procedures[id]?.map (.rename S.procedure S.frame)
  captured : ∀ {s s'} {id : Nat} {p : Procedure}, S.store s s' → s.procedures[id]? = some p →
    S.live s p.frame ∧ ∀ q ∈ p.body, S.code q
  /-- Names that a scope binds are no keywords. -/
  scope : ∀ {s s' f bindings}, S.store s s' → S.live s f →
    (∀ b ∈ bindings, Keyword.ofName? b.1 = none) → S.Enters s s' f bindings
  /-- A call binds parameters, whatever they are called. -/
  call : ∀ {s s'} {id : Nat} {p : Procedure} {args bindings}, S.store s s' →
    s.procedures[id]? = some p → Store.argumentBindings p.parameters args = .ok bindings →
    S.Enters s s' p.frame bindings

variable {S : Simulation} {hosts : Host.Table} {s s' s₁ s₁' s₂ s₂' : Store}

theorem Goes.refl (h : S.store s s') : S.Goes s s s' := ⟨h, fun _ hf => hf⟩

theorem Goes.trans (h : S.Goes s s₁ s₁') (h' : S.Goes s₁ s₂ s₂') : S.Goes s s₂ s₂' :=
  ⟨h'.store, fun f hf => h'.live f (h.live f hf)⟩

/-! ## 4. Results -/

/-- The results correspond: the stores do, and the second outcome is the first one changed by `g`.
    If it is a value, `P` holds of it, and if it is a failure, it can be accounted for. -/
structure Agrees {α β : Type} (S : Simulation) (hosts : Host.Table) (s : Store) (P : α → Prop)
    (g : α → β) (r : Result α) (r' : Result β) : Prop where
  goes : S.Goes s r.2 r'.2
  outcome : r'.1 = r.1.map g
  value : ∀ a, r.1 = .value a → P a
  failure : ∀ err, r.1 = .failure err → Raised hosts S.code err

/-- Nothing is asked of a value. -/
def Any {α : Type} (_ : α) : Prop := True

section Results

variable {α β γ δ : Type} {P : α → Prop} {Q : γ → Prop} {g : α → β} {k : γ → δ}

theorem Agrees.of_goes {r : Result α} {r' : Result β} (h : S.Goes s s₁ s₁')
    (hr : S.Agrees hosts s₁ P g r r') : S.Agrees hosts s P g r r' :=
  ⟨h.trans hr.goes, hr.outcome, hr.value, hr.failure⟩

theorem agrees_value {a : α} {b : β} (hs : S.store s s') (hb : b = g a) (h : P a) :
    S.Agrees hosts s P g (.value a, s) (.value b, s') := by
  refine ⟨.refl hs, congrArg Outcome.value hb, fun a' ha => ?_, nofun⟩
  cases ha
  exact h

theorem agrees_failure {err : Error} (hs : S.store s s') (h : Raised hosts S.code err) :
    S.Agrees hosts s P g (.failure err, s) (.failure err, s') := by
  refine ⟨.refl hs, rfl, nofun, fun err' he => ?_⟩
  cases he
  exact h

theorem agrees_settled {x : Except Error α} {x' : Except Error β} (hs : S.store s s')
    (hx : x' = x.map g) (hP : ∀ a, x = .ok a → P a)
    (hE : ∀ err, x = .error err → Raised hosts S.code err) :
    S.Agrees hosts s P g (settled s x) (settled s' x') := by
  subst hx
  cases x with
  | error err => exact agrees_failure hs (hE err rfl)
  | ok a => exact agrees_value hs rfl (hP a rfl)

theorem agrees_andThen {r : Result α} {r' : Result β} {next : α → Store → Result γ}
    {next' : β → Store → Result δ} (hr : S.Agrees hosts s P g r r')
    (hn : ∀ a s₁ s₁', S.Goes s s₁ s₁' → P a →
      S.Agrees hosts s₁ Q k (next a s₁) (next' (g a) s₁')) :
    S.Agrees hosts s Q k (andThen r next) (andThen r' next') := by
  obtain ⟨outcome, s₁⟩ := r
  obtain ⟨outcome', s₁'⟩ := r'
  obtain ⟨hgoes, rfl, hvalue, hfailure⟩ := hr
  cases outcome with
  | value a => exact .of_goes hgoes (hn a s₁ s₁' hgoes (hvalue a rfl))
  | failure err =>
    refine ⟨hgoes, rfl, nofun, fun err' he => ?_⟩
    cases he
    exact hfailure err rfl
  | unfinished => exact ⟨hgoes, rfl, nofun, nofun⟩

end Results

/-- Evaluators that correspond. -/
def Follows (S : Simulation) (hosts : Host.Table) (ev ev' : Evaluator) : Prop :=
  ∀ f e s s', S.store s s' → S.live s f → S.code e →
    S.Agrees hosts s Any (.rename S.procedure) (ev f e s)
      (ev' (S.frame f) (e.rename S.procedure) s')

/-- Turns that correspond: both are over, or both go on. -/
def Takes (S : Simulation) (hosts : Host.Table) (s : Store) : Turn → Turn → Prop
  | .ended r, .ended r' => S.Agrees hosts s Any (.rename S.procedure) r r'
  | .onward f e s₁, .onward f' e' s₁' =>
    (S.Goes s s₁ s₁' ∧ S.live s₁ f ∧ S.code e) ∧ f' = S.frame f ∧ e' = e.rename S.procedure
  | _, _ => False

theorem Takes.of_goes {t t' : Turn} (h : S.Goes s s₁ s₁') (ht : S.Takes hosts s₁ t t') :
    S.Takes hosts s t t' := by
  cases t with
  | ended r =>
    cases t' with
    | ended r' => exact Agrees.of_goes h ht
    | onward => exact ht.elim
  | onward f e s₂ =>
    cases t' with
    | ended => exact ht.elim
    | onward f' e' s₂' => exact ⟨⟨h.trans ht.1.1, ht.1.2⟩, ht.2⟩

theorem takes_after {α β : Type} {P : α → Prop} {g : α → β} {r : Result α} {r' : Result β}
    {next : α → Store → Turn} {next' : β → Store → Turn} (hr : S.Agrees hosts s P g r r')
    (hn : ∀ a s₁ s₁', S.Goes s s₁ s₁' → P a → S.Takes hosts s₁ (next a s₁) (next' (g a) s₁')) :
    S.Takes hosts s (.after r next) (.after r' next') := by
  obtain ⟨outcome, s₁⟩ := r
  obtain ⟨outcome', s₁'⟩ := r'
  obtain ⟨hgoes, rfl, hvalue, hfailure⟩ := hr
  cases outcome with
  | value a => exact .of_goes hgoes (hn a s₁ s₁' hgoes (hvalue a rfl))
  | failure err =>
    refine ⟨hgoes, rfl, nofun, fun err' he => ?_⟩
    cases he
    exact hfailure err rfl
  | unfinished => exact ⟨hgoes, rfl, nofun, nofun⟩

/-- What is left to do after corresponding turns corresponds. -/
theorem Takes.finish {t t' : Turn} {ev ev' : Evaluator} (ht : S.Takes hosts s t t')
    (hev : S.Follows hosts ev ev') :
    S.Agrees hosts s Any (.rename S.procedure) (t.finish ev) (t'.finish ev') := by
  cases t with
  | ended r =>
    cases t' with
    | ended r' => exact ht
    | onward => exact ht.elim
  | onward f e s₁ =>
    cases t' with
    | ended => exact ht.elim
    | onward f' e' s₁' =>
      obtain ⟨⟨hgoes, hf, he⟩, rfl, rfl⟩ := ht
      exact .of_goes hgoes (hev f e s₁ s₁' hgoes.store hf he)

namespace Kept

variable {ev ev' : Evaluator} {f : Nat}

/-! ## 5. Several expressions -/

theorem evalEach (hev : S.Follows hosts ev ev') {es : List Value} (hs : S.store s s')
    (hf : S.live s f) (hes : ∀ e ∈ es, S.code e) :
    S.Agrees hosts s Any (List.map (.rename S.procedure)) (evalEach (ev f) es s)
      (evalEach (ev' (S.frame f)) (es.map (.rename S.procedure)) s') := by
  induction es generalizing s s' with
  | nil => exact agrees_value hs rfl trivial
  | cons e es ih =>
    obtain ⟨he, hes⟩ := List.forall_mem_cons.1 hes
    refine agrees_andThen (hev f e s s' hs hf he) fun v s₁ s₁' h₁ _ => ?_
    refine agrees_andThen (ih h₁.store (h₁.live f hf) hes) fun vs s₂ s₂' h₂ _ => ?_
    exact agrees_value h₂.store rfl trivial

/-- The last expression of a sequence is one of its expressions. -/
theorem evalSequence (hev : S.Follows hosts ev ev') {es : List Value} (hs : S.store s s')
    (hf : S.live s f) (hes : ∀ e ∈ es, S.code e) :
    S.Agrees hosts s S.code (.rename S.procedure) (evalSequence (ev f) es s)
      (evalSequence (ev' (S.frame f)) (es.map (.rename S.procedure)) s') := by
  induction es generalizing s s' with
  | nil => exact agrees_failure hs (.ordinary rfl)
  | cons e es ih =>
    obtain ⟨he, hes⟩ := List.forall_mem_cons.1 hes
    cases es with
    | nil => exact agrees_value hs rfl he
    | cons e' es =>
      refine agrees_andThen (hev f e s s' hs hf he) fun v s₁ s₁' h₁ _ => ?_
      exact ih h₁.store (h₁.live f hf) hes

/-- The names of a scope are no keywords. -/
theorem evalLocals (hev : S.Follows hosts ev ev') {bs : List Value} (hs : S.store s s')
    (hf : S.live s f) (hbs : ∀ b ∈ bs, ∀ x e, Form.readLocal b = .ok (x, e) → S.code e) :
    S.Agrees hosts s (fun locals => ∀ p ∈ locals, Keyword.ofName? p.1 = none)
      (List.map fun p => (p.1, p.2.rename S.procedure)) (evalLocals (ev f) bs s)
      (evalLocals (ev' (S.frame f)) (bs.map (.rename S.procedure)) s') := by
  induction bs generalizing s s' with
  | nil => exact agrees_value hs rfl nofun
  | cons b bs ih =>
    obtain ⟨hb, hbs⟩ := List.forall_mem_cons.1 hbs
    have hread : S.Agrees hosts s (fun p => Keyword.ofName? p.1 = none ∧ S.code p.2)
        (fun p => (p.1, p.2.rename S.procedure)) (settled s (Form.readLocal b))
        (settled s' (Form.readLocal (b.rename S.procedure))) :=
      agrees_settled hs (Form.readLocal_rename S.procedure b)
        (fun p hp => ⟨Form.readLocal_ordinary hp, hb p.1 p.2 hp⟩)
        (fun err herr => .complaint (Form.isComplaint_of_readLocal herr))
    refine agrees_andThen hread fun p s₁ s₁' h₁ hp => ?_
    have hf₁ := h₁.live f hf
    refine agrees_andThen (hev f p.2 s₁ s₁' h₁.store hf₁ hp.2) fun v s₂ s₂' h₂ _ => ?_
    refine agrees_andThen (ih h₂.store (h₂.live f hf₁) hbs) fun rest s₃ s₃' h₃ hrest => ?_
    exact agrees_value h₃.store rfl (List.forall_mem_cons.2 ⟨hp.1, hrest⟩)

/-! ## 6. Turns -/

theorem bodyTurn (hev : S.Follows hosts ev ev') {body : List Value} (hs : S.store s s')
    (hf : S.live s f) (hbody : ∀ e ∈ body, S.code e) :
    S.Takes hosts s (bodyTurn ev f body s)
      (bodyTurn ev' (S.frame f) (body.map (.rename S.procedure)) s') :=
  takes_after (evalSequence hev hs hf hbody) fun _ _ _ h₁ hlast =>
    ⟨⟨.refl h₁.store, h₁.live f hf, hlast⟩, rfl, rfl⟩

/-- A body in a new frame. -/
theorem enterTurn (hev : S.Follows hosts ev ev') {bindings : Bindings} {body : List Value}
    (h : S.Enters s s' f bindings) (hbody : ∀ e ∈ body, S.code e) :
    S.Takes hosts s (Eval.bodyTurn ev s.frames.size body (s.newFrame (some f) bindings).2)
      (Eval.bodyTurn ev' s'.frames.size (body.map (.rename S.procedure))
        (s'.newFrame (some (S.frame f)) (bindings.rename S.procedure)).2) := by
  rw [← h.frame]
  exact .of_goes h.goes (bodyTurn hev h.goes.store h.live hbody)

/-- What changes the effects only, and does the same for renumbered values. -/
theorem agrees_perform (hS : S.Kept hosts) {act act' : Effects → Except Error Value × Effects}
    (hs : S.store s s')
    (hact : ∀ w, act' w = ((act w).1.map (.rename S.procedure), (act w).2))
    (hE : ∀ err, (act s.effects).1 = .error err → Raised hosts S.code err) :
    S.Agrees hosts s Any (.rename S.procedure) (Eval.perform s act) (Eval.perform s' act') := by
  rw [perform_eq, perform_eq, hS.effects hs, hact]
  have hgoes := hS.perform (act s.effects).2 hs
  exact .of_goes hgoes (agrees_settled hgoes.store rfl (fun _ _ => trivial) hE)

theorem dataList (hS : S.Kept hosts) (operator : Value) (args : List Value) (hs : S.store s s') :
    S.Agrees hosts s Any (.rename S.procedure) (dataList operator args s)
      (dataList (operator.rename S.procedure) (args.map (.rename S.procedure)) s') :=
  hS.agrees_perform hs (Effects.list_rename S.procedure (operator :: args))
    fun _ herr => .complaint (Effects.isComplaint_of_list herr)

theorem hostCall (hS : S.Kept hosts) {h : HostFunction} (args : List Value) (hs : S.store s s')
    (hh : h ∈ hosts) :
    S.Agrees hosts s Any (.rename S.procedure) (Eval.perform s (h.call args))
      (Eval.perform s' (h.call (args.map (.rename S.procedure)))) := by
  refine hS.agrees_perform hs (HostFunction.call_rename (hS.host h hh) args) fun err herr => ?_
  unfold HostFunction.call at herr
  split at herr
  · cases herr
    exact .ordinary rfl
  · exact .host hh herr

theorem applyTurn (hS : S.Kept hosts) (hev : S.Follows hosts ev ev') (operator callee : Value)
    (args : List Value) (hs : S.store s s') :
    S.Takes hosts s (applyTurn hosts ev operator callee args s)
      (applyTurn hosts ev' (operator.rename S.procedure) (callee.rename S.procedure)
        (args.map (.rename S.procedure)) s') := by
  have hdata := hS.dataList callee args hs
  cases callee with
  | hostFunction id name =>
    simp only [Expression.rename, Eval.applyTurn, Expression.isPair_rename]
    cases hh : hosts[id]? with
    | none => exact hdata
    | some h =>
      dsimp only
      split
      · exact hdata
      · exact hS.hostCall args hs (Array.mem_of_getElem? hh)
  | procedure id =>
    simp only [Expression.rename, Eval.applyTurn, hS.procedure hs id]
    cases hp : s.procedures[id]? with
    | none => exact hdata
    | some p =>
      have hargs := Store.argumentBindings_rename S.procedure p.parameters args
      simp only [Option.map_some, procedureTurn, Store.bind, Procedure.rename, hargs]
      cases hb : Store.argumentBindings p.parameters args with
      | error err => exact agrees_failure hs (.complaint (Store.isComplaint_of_argumentBindings hb))
      | ok bindings => exact enterTurn hev (hS.call hs hp hb) (hS.captured hs hp).2
  | _ => exact hdata

theorem formTurn (hS : S.Kept hosts) (hev : S.Follows hosts ev ev') {form : Form}
    (hs : S.store s s') (hf : S.live s f) (hform : Form.ReadFrom S.code form) :
    S.Takes hosts s (formTurn hosts ev f form s)
      (formTurn hosts ev' (S.frame f) (form.rename S.procedure) s') := by
  have hcode := hS.evaluated hform
  have hordinary : ∀ x e, form = .define x e ∨ form = .assign x e → Keyword.ofName? x = none := by
    obtain ⟨_, _, _, _, hread⟩ := hform
    exact fun x e => Form.read_ordinary hread
  have hset : ∀ x e, Keyword.ofName? x = none → S.code e →
      S.Takes hosts s
        (.ended (andThen (ev f e s) fun v s₁ => (.value .unspecified, s₁.set f x v)))
        (.ended (andThen (ev' (S.frame f) (e.rename S.procedure) s') fun v s₁ =>
          (.value .unspecified, s₁.set (S.frame f) x v))) := by
    intro x e hx he
    refine agrees_andThen (hev f e s s' hs hf he) fun v s₁ s₁' h₁ _ => ?_
    have h₂ := hS.set v h₁.store (h₁.live f hf) hx
    exact .of_goes h₂ (agrees_value h₂.store rfl trivial)
  cases form with
  | constant e => exact agrees_value hs rfl trivial
  | define x e => exact hset x e (hordinary x e (.inl rfl)) (hcode e List.mem_cons_self)
  | assign x e =>
    have hhas : s'.has (S.frame f) x = s.has f x := by
      rw [Store.has_eq_isSome_get?, Store.has_eq_isSome_get?, hS.lookup hs hf, Option.isSome_map]
    simp only [Form.rename, Eval.formTurn, hhas]
    split
    · exact hset x e (hordinary x e (.inr rfl)) (hcode e List.mem_cons_self)
    · exact agrees_failure hs (.ordinary rfl)
  | lambda parameters body =>
    simp only [Form.rename, Eval.formTurn, Store.newProcedure, List.isEmpty_map]
    cases hb : body.isEmpty with
    | true => exact agrees_failure hs (.ordinary rfl)
    | false =>
      have hne : body ≠ [] := fun he => by simp [he] at hb
      obtain ⟨hgoes, hnumber⟩ := hS.lambda hs hf hform hne
      refine Agrees.of_goes hgoes (agrees_value hgoes.store ?_ trivial)
      rw [Expression.rename, hnumber]
  | branch test consequent alternative =>
    obtain ⟨htest, hrest⟩ := List.forall_mem_cons.1 hcode
    obtain ⟨hcon, halt⟩ := List.forall_mem_cons.1 hrest
    refine takes_after (hev f test s s' hs hf htest) fun v s₁ s₁' h₁ _ => ?_
    have hon : ∀ e, S.code e → S.Takes hosts s₁ (.onward f e s₁)
        (.onward (S.frame f) (e.rename S.procedure) s₁') := fun e he =>
      ⟨⟨.refl h₁.store, h₁.live f hf, he⟩, rfl, rfl⟩
    rw [Expression.isTruthy_rename]
    split
    · exact hon consequent hcon
    · cases alternative with
      | none => exact agrees_value h₁.store rfl trivial
      | some e => exact hon e (halt e List.mem_cons_self)
  | sequence body =>
    simp only [Form.rename, Eval.formTurn, List.isEmpty_map]
    split
    · exact agrees_value hs rfl trivial
    · exact bodyTurn hev hs hf hcode
  | scope bindings body =>
    have hbs : ∀ b ∈ bindings, ∀ x e, Form.readLocal b = .ok (x, e) → S.code e :=
      fun b hb x e he => hcode e (Form.mem_evaluated_of_readLocal hb he)
    have hbody : ∀ e ∈ body, S.code e := fun e he => hcode e (List.mem_append_right _ he)
    refine takes_after (evalLocals hev hs hf hbs) fun locals s₁ s₁' h₁ hlocals => ?_
    have hnames : ∀ b ∈ Bindings.setAll [] locals, Keyword.ofName? b.1 = none := by
      intro b hb
      rcases Bindings.mem_setAll hb with hb | hb
      · exact hlocals b hb
      · cases hb
    have henter := enterTurn hev (hS.scope h₁.store (h₁.live f hf) hnames) hbody
    rw [Bindings.setAll_rename] at henter
    exact henter
  | application operator operands =>
    obtain ⟨ho, hos⟩ := List.forall_mem_cons.1 hcode
    refine takes_after (hev f operator s s' hs hf ho) fun callee s₁ s₁' h₁ _ => ?_
    refine takes_after (evalEach hev h₁.store (h₁.live f hf) hos) fun args s₂ s₂' h₂ _ => ?_
    exact hS.applyTurn hev operator callee args h₂.store

/-- **The two evaluations take corresponding turns**, if their evaluators correspond. -/
theorem turn (hS : S.Kept hosts) (hev : S.Follows hosts ev ev') {e : Value} (hs : S.store s s')
    (hf : S.live s f) (he : S.code e) :
    S.Takes hosts s (turn hosts ev f e s)
      (turn hosts ev' (S.frame f) (e.rename S.procedure) s') := by
  cases e with
  | symbol x =>
    have hsymbol : evalSymbol s' (S.frame f) x = (evalSymbol s f x).map (.rename S.procedure) := by
      unfold evalSymbol
      rw [hS.lookup hs hf]
      split
      · rfl
      · cases s.get? f x <;> rfl
    refine agrees_settled hs hsymbol (fun _ _ => trivial) fun err herr => ?_
    unfold evalSymbol at herr
    repeat' split at herr
    all_goals cases herr
    all_goals exact .ordinary rfl
  | hostFunction | unspecified => exact agrees_failure hs (.illegal he rfl)
  | pair cell operator rest =>
    have hread := Form.read_rename S.procedure operator rest.items
    simp only [Expression.rename, Eval.turn, Expression.items_rename, hread]
    cases hform : Form.read operator rest.items with
    | error err => exact agrees_failure hs (.complaint (Form.isComplaint_of_read hform))
    | ok form => exact hS.formTurn hev hs hf ⟨cell, operator, rest, he, hform⟩
  | _ => exact agrees_value hs rfl trivial

/-! ## 7. The evaluator -/

/-- **All evaluations correspond**, with the same fuel, by induction on it: turn after turn, and
    inside each turn the evaluations nested in it. -/
theorem eval (hS : S.Kept hosts) (fuel : Nat) :
    S.Follows hosts (eval hosts fuel) (eval hosts fuel) := by
  induction fuel with
  | zero => exact fun f e s s' hs _ _ => ⟨.refl hs, rfl, nofun, nofun⟩
  | succ fuel ih =>
    intro f e s s' hs hf he
    rw [eval_succ, eval_succ]
    exact (hS.turn ih hs hf he).finish ih

end Kept

end Simulation

end Eval

end HostedLisp
