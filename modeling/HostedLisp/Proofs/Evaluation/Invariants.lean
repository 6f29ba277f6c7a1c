import HostedLisp.Eval.Fuel
import HostedLisp.Proofs.Evaluation.Building
import HostedLisp.Session
import HostedLisp.Store.Lemmas

/-!
# Invariants of evaluation

Many facts about evaluation are of one form: something holds of the store, of the frames that
expressions are evaluated in, of the expressions that are evaluated, and of the values that come
out; and whatever evaluation does keeps it so. An `Invariant` is these four things. Whether it is
kept is a matter of the few things that evaluation does (`Invariant.Kept`), and then it holds
throughout every evaluation, however that ends.

* `Form.parts` -- the expressions that a form takes from a pair;
* `Invariant`, `Invariant.Later` -- an invariant, and what stays true while the store changes;
* `Invariant.Kept` -- all that evaluation does keeps the invariant;
* `Kept.turn` -- then one turn of the loop does, if its evaluator does;
* `Kept.eval` -- **then every evaluation does**;
* `Kept.runSource` -- and every run of a program whose expressions meet it.
-/

namespace HostedLisp

/-! ## 1. The expressions of a form -/

section Parts

variable {ι : Type} {P : Expression ι → Prop} (hP : ∀ {c a b}, P (.pair c a b) → P a ∧ P b)
include hP

theorem Expression.forall_restItems {e : Expression ι} (h : P e) : ∀ q ∈ e.restItems, P q := by
  induction e with
  | pair c a b _ ihb =>
    obtain ⟨ha, hb⟩ := hP h
    exact List.forall_mem_cons.2 ⟨ha, ihb hb⟩
  | emptyList => exact nofun
  | _ => exact fun q hq => List.mem_singleton.1 hq ▸ h

theorem Expression.forall_items {e : Expression ι} (h : P e) : ∀ q ∈ e.items, P q := by
  cases e with
  | pair c a b =>
    obtain ⟨ha, hb⟩ := hP h
    exact List.forall_mem_cons.2 ⟨ha, Expression.forall_restItems hP hb⟩
  | _ => exact nofun

end Parts

namespace Form

/-- The expressions that a form is made of. -/
def parts : Form → List Value
  | .constant e | .define _ e | .assign _ e => [e]
  | .lambda parameters body => parameters ++ body
  | .branch test consequent alternative => test :: consequent :: alternative.toList
  | .sequence body => body
  | .scope bindings body => bindings ++ body
  | .application operator operands => operator :: operands

theorem mem_of_readBinding {k : Keyword} {operands : List Value} {x : String} {e : Value}
    (h : readBinding k operands = .ok (x, e)) : e ∈ operands := by
  unfold readBinding at h
  split at h
  · split at h
    · split at h
      · cases h
      · cases h
        exact List.mem_cons_of_mem _ List.mem_cons_self
    · cases h
  · cases h

theorem mem_of_readLocal {binding : Value} {x : String} {e : Value}
    (h : readLocal binding = .ok (x, e)) : e ∈ binding.items := by
  unfold readLocal at h
  split at h
  · rename_i hitems
    split at h
    · cases h
    · cases h
      rw [hitems]
      exact List.mem_cons_of_mem _ List.mem_cons_self
  · cases h

/-- The form of a pair is made of its operator, its operands and their items. -/
theorem forall_parts_of_read {P : Value → Prop} (hP : ∀ {c a b}, P (.pair c a b) → P a ∧ P b)
    {operator : Value} {operands : List Value} {form : Form} (ho : P operator)
    (hs : ∀ q ∈ operands, P q) (h : read operator operands = .ok form) :
    ∀ q ∈ form.parts, P q := by
  unfold read at h
  split at h
  · rename_i k _
    have hbinding : ∀ x e, readBinding k operands = .ok (x, e) → ∀ q ∈ [e], P q := by
      intro x e he q hq
      rw [List.mem_singleton.1 hq]
      exact hs e (mem_of_readBinding he)
    have hitems : ∀ e body, (∀ q ∈ e :: body, P q) → ∀ q ∈ e.items ++ body, P q := by
      intro e body hq
      obtain ⟨he, hbody⟩ := List.forall_mem_cons.1 hq
      exact List.forall_mem_append.2 ⟨Expression.forall_items hP he, hbody⟩
    cases k with
    | quote =>
      simp only [readSpecial] at h
      split at h
      · cases h
        exact hs
      · cases h
    | define | assign =>
      simp only [readSpecial] at h
      split at h
      · cases h
      · rename_i x e he
        cases h
        exact hbinding x e he
    | lambda =>
      simp only [readSpecial] at h
      split at h
      · cases h
      · split at h
        · cases h
          exact hitems _ _ hs
        · cases h
    | branch =>
      simp only [readSpecial] at h
      split at h
      · cases h
        exact hs
      · cases h
        exact hs
      · cases h
    | sequence =>
      cases h
      exact hs
    | scope =>
      simp only [readSpecial] at h
      split at h
      · split at h
        · cases h
          exact hitems _ _ hs
        · cases h
      · cases h
  · cases h
    exact List.forall_mem_cons.2 ⟨ho, hs⟩

end Form

namespace Eval

/-! ## 2. Invariants -/

/-- What is to hold throughout evaluation. -/
structure Invariant where
  /-- Of stores. -/
  store : Store → Prop
  /-- Of frames in which expressions are evaluated. -/
  frame : Store → Nat → Prop
  /-- Of expressions that are evaluated. -/
  code : Store → Value → Prop
  /-- Of values that come out. -/
  value : Store → Value → Prop

namespace Invariant

/-- The store `s₁` meets the invariant, and what met it with `s` still does. -/
structure Later (I : Invariant) (s s₁ : Store) : Prop where
  store : I.store s₁
  frame : ∀ f, I.frame s f → I.frame s₁ f
  code : ∀ e, I.code s e → I.code s₁ e
  value : ∀ v, I.value s v → I.value s₁ v

/-- Everything that evaluation does keeps the invariant. -/
structure Kept (I : Invariant) (hosts : Host.Table) : Prop where
  /-- The parts of expressions are evaluated. -/
  parts : ∀ {s c a b}, I.code s (.pair c a b) → I.code s a ∧ I.code s b
  /-- Constants and what is quoted are values. -/
  data : ∀ {s e}, I.code s e → I.value s e
  built : ∀ {s given v}, (∀ u ∈ given, I.value s u) → BuiltFrom given v → I.value s v
  host : ∀ {s h args w v}, h ∈ hosts → (∀ u ∈ args, I.value s u) →
    h.run args s.effects = (.ok v, w) → I.value s v
  effects : ∀ {s} (w : Effects), I.store s → I.Later s (s.withEffects w)
  lookup : ∀ {s f x v}, I.store s → I.frame s f → s.get? f x = some v → I.value s v
  set : ∀ {s f v} (x : String), I.store s → I.frame s f → I.value s v → I.Later s (s.set f x v)
  lambda : ∀ {s f parameters body}, I.store s → I.frame s f →
    (∀ q ∈ parameters ++ body, I.code s q) → body ≠ [] →
    I.Later s { s with procedures := s.procedures.push ⟨parameters, body, f⟩ } ∧
      I.value { s with procedures := s.procedures.push ⟨parameters, body, f⟩ }
        (.procedure s.procedures.size)
  enter : ∀ {s f bindings}, I.store s → I.frame s f → (∀ p ∈ bindings, I.value s p.2) →
    I.Later s (s.newFrame (some f) bindings).2 ∧
      I.frame (s.newFrame (some f) bindings).2 (s.newFrame (some f) bindings).1
  procedure : ∀ {s id p}, I.store s → I.value s (.procedure id) → s.procedures[id]? = some p →
    I.frame s p.frame ∧ ∀ q ∈ p.body, I.code s q

variable {I : Invariant} {s s₁ s₂ : Store}

theorem Later.refl (h : I.store s) : I.Later s s where
  store := h
  frame _ h := h
  code _ h := h
  value _ h := h

theorem Later.trans (h : I.Later s s₁) (h' : I.Later s₁ s₂) : I.Later s s₂ where
  store := h'.store
  frame f hf := h'.frame f (h.frame f hf)
  code e he := h'.code e (h.code e he)
  value v hv := h'.value v (h.value v hv)

/-! ## 3. Results -/

/-- The result keeps what holds with `s`, and if it is a value, `P` holds of it. -/
structure Gives {α : Type} (I : Invariant) (s : Store) (P : Store → α → Prop) (r : Result α) :
    Prop where
  later : I.Later s r.2
  value : ∀ a, r.1 = .value a → P r.2 a

section Results

variable {α β : Type} {P : Store → α → Prop} {Q : Store → β → Prop} {r : Result α}

theorem Gives.of_later (h : I.Later s s₁) (hr : I.Gives s₁ P r) : I.Gives s P r :=
  ⟨h.trans hr.later, hr.value⟩

theorem gives_value {a : α} (hs : I.store s) (h : P s a) : I.Gives s P (.value a, s) := by
  refine ⟨.refl hs, fun b hb => ?_⟩
  cases hb
  exact h

theorem gives_failure {e : Error} (hs : I.store s) : I.Gives s P (.failure e, s) :=
  ⟨.refl hs, nofun⟩

theorem gives_settled {x : Except Error α} (hs : I.store s) (h : ∀ a, x = .ok a → P s a) :
    I.Gives s P (settled s x) := by
  cases x with
  | error e => exact gives_failure hs
  | ok a => exact gives_value hs (h a rfl)

theorem gives_andThen {next : α → Store → Result β} (hr : I.Gives s P r)
    (hn : ∀ a s₁, I.Later s s₁ → P s₁ a → I.Gives s₁ Q (next a s₁)) :
    I.Gives s Q (andThen r next) := by
  obtain ⟨outcome, s₁⟩ := r
  cases outcome with
  | value a => exact .of_later hr.later (hn a s₁ hr.later (hr.value a rfl))
  | failure e => exact ⟨hr.later, nofun⟩
  | unfinished => exact ⟨hr.later, nofun⟩

end Results

/-- The evaluator keeps the invariant. -/
def Preserved (I : Invariant) (ev : Evaluator) : Prop :=
  ∀ f e s, I.store s → I.frame s f → I.code s e → I.Gives s I.value (ev f e s)

namespace Kept

variable {hosts : Host.Table} {ev : Evaluator} {f : Nat}

/-- What changes the effects only, and comes to values that meet the invariant. -/
theorem perform (hI : I.Kept hosts) {act : Effects → Except Error Value × Effects}
    (hs : I.store s) (h : ∀ v w, act s.effects = (.ok v, w) → I.value s v) :
    I.Gives s I.value (perform s act) := by
  rw [perform_eq]
  have hlater := hI.effects (act s.effects).2 hs
  refine .of_later hlater (gives_settled hlater.store fun v hv => ?_)
  exact hlater.value v (h v (act s.effects).2 (by rw [← hv]))

/-! ## 4. Several expressions -/

theorem evalEach (hev : I.Preserved ev) {es : List Value} (hs : I.store s) (hf : I.frame s f)
    (hes : ∀ e ∈ es, I.code s e) :
    I.Gives s (fun s vs => ∀ v ∈ vs, I.value s v) (evalEach (ev f) es s) := by
  induction es generalizing s with
  | nil => exact gives_value hs nofun
  | cons e es ih =>
    obtain ⟨he, hes⟩ := List.forall_mem_cons.1 hes
    refine gives_andThen (hev f e s hs hf he) fun v s₁ h₁ hv => ?_
    refine gives_andThen (ih h₁.store (h₁.frame f hf) fun q hq => h₁.code q (hes q hq))
      fun vs s₂ h₂ hvs => ?_
    exact gives_value h₂.store (List.forall_mem_cons.2 ⟨h₂.value v hv, hvs⟩)

/-- The last expression of a sequence is one of its expressions. -/
theorem evalSequence (hev : I.Preserved ev) {es : List Value} (hs : I.store s)
    (hf : I.frame s f) (hes : ∀ e ∈ es, I.code s e) :
    I.Gives s I.code (evalSequence (ev f) es s) := by
  induction es generalizing s with
  | nil => exact gives_failure hs
  | cons e es ih =>
    obtain ⟨he, hes⟩ := List.forall_mem_cons.1 hes
    cases es with
    | nil => exact gives_value hs he
    | cons e' es =>
      refine gives_andThen (hev f e s hs hf he) fun v s₁ h₁ _ => ?_
      exact ih h₁.store (h₁.frame f hf) fun q hq => h₁.code q (hes q hq)

theorem evalLocals (hI : I.Kept hosts) (hev : I.Preserved ev) {bs : List Value} (hs : I.store s)
    (hf : I.frame s f) (hbs : ∀ b ∈ bs, I.code s b) :
    I.Gives s (fun s locals => ∀ p ∈ locals, I.value s p.2) (evalLocals (ev f) bs s) := by
  induction bs generalizing s with
  | nil => exact gives_value hs nofun
  | cons b bs ih =>
    obtain ⟨hb, hbs⟩ := List.forall_mem_cons.1 hbs
    have hread : I.Gives s (fun s p => I.code s p.2) (settled s (Form.readLocal b)) :=
      gives_settled hs fun p hp =>
        Expression.forall_items hI.parts hb p.2 (Form.mem_of_readLocal hp)
    refine gives_andThen hread fun p s₁ h₁ hp => ?_
    have hf₁ := h₁.frame f hf
    refine gives_andThen (hev f p.2 s₁ h₁.store hf₁ hp) fun v s₂ h₂ hv => ?_
    have h₁₂ := h₁.trans h₂
    refine gives_andThen (ih h₂.store (h₂.frame f hf₁) fun q hq => h₁₂.code q (hbs q hq))
      fun rest s₃ h₃ hrest => ?_
    exact gives_value h₃.store (List.forall_mem_cons.2 ⟨h₃.value v hv, hrest⟩)

end Kept

/-! ## 5. Turns -/

/-- The turn keeps what holds with `s`, and if the loop goes on, that is with an expression and in
    a frame that meet the invariant. -/
def Takes (I : Invariant) (s : Store) : Turn → Prop
  | .ended r => I.Gives s I.value r
  | .onward f e s₁ => I.Later s s₁ ∧ I.frame s₁ f ∧ I.code s₁ e

theorem Takes.of_later {t : Turn} (h : I.Later s s₁) (ht : I.Takes s₁ t) : I.Takes s t := by
  cases t with
  | ended r => exact Gives.of_later h ht
  | onward f e s₂ => exact ⟨h.trans ht.1, ht.2⟩

theorem takes_after {α : Type} {P : Store → α → Prop} {r : Result α} {next : α → Store → Turn}
    (hr : I.Gives s P r) (hn : ∀ a s₁, I.Later s s₁ → P s₁ a → I.Takes s₁ (next a s₁)) :
    I.Takes s (.after r next) := by
  obtain ⟨outcome, s₁⟩ := r
  cases outcome with
  | value a => exact .of_later hr.later (hn a s₁ hr.later (hr.value a rfl))
  | failure e => exact ⟨hr.later, nofun⟩
  | unfinished => exact ⟨hr.later, nofun⟩

namespace Kept

variable {hosts : Host.Table} {ev : Evaluator} {f : Nat}

theorem unspecified (hI : I.Kept hosts) : I.value s .unspecified := by
  have hnone : ∀ u ∈ [], I.value s u := nofun
  exact hI.built hnone (.plain rfl)

theorem bodyTurn (hev : I.Preserved ev) {body : List Value} (hs : I.store s) (hf : I.frame s f)
    (hbody : ∀ e ∈ body, I.code s e) : I.Takes s (bodyTurn ev f body s) :=
  takes_after (evalSequence hev hs hf hbody) fun _ _ h₁ hlast =>
    ⟨.refl h₁.store, h₁.frame f hf, hlast⟩

/-- A body in a new frame. -/
theorem bodyTurn_newFrame (hI : I.Kept hosts) (hev : I.Preserved ev) {bindings : Bindings}
    {body : List Value} (hs : I.store s) (hf : I.frame s f)
    (hb : ∀ p ∈ bindings, I.value s p.2) (hbody : ∀ e ∈ body, I.code s e) :
    I.Takes s (Eval.bodyTurn ev (s.newFrame (some f) bindings).1 body
      (s.newFrame (some f) bindings).2) := by
  obtain ⟨hlater, hframe⟩ := hI.enter hs hf hb
  exact .of_later hlater (bodyTurn hev hlater.store hframe fun e he => hlater.code e (hbody e he))

theorem dataList (hI : I.Kept hosts) {operator : Value} {args : List Value} (hs : I.store s)
    (ho : I.value s operator) (hargs : ∀ v ∈ args, I.value s v) :
    I.Gives s I.value (dataList operator args s) :=
  hI.perform hs fun _ _ h =>
    hI.built (List.forall_mem_cons.2 ⟨ho, hargs⟩) (Effects.builtFrom_of_list h)

theorem call (hI : I.Kept hosts) {h : HostFunction} {args : List Value} (hs : I.store s)
    (hh : h ∈ hosts) (hargs : ∀ v ∈ args, I.value s v) :
    I.Gives s I.value (Eval.perform s (h.call args)) := by
  refine hI.perform hs fun v w hv => ?_
  unfold HostFunction.call at hv
  split at hv
  · cases hv
  · exact hI.host hh hargs hv

theorem applyTurn (hI : I.Kept hosts) (hev : I.Preserved ev) (operator : Value) {callee : Value}
    {args : List Value} (hs : I.store s) (hc : I.value s callee)
    (hargs : ∀ v ∈ args, I.value s v) :
    I.Takes s (applyTurn hosts ev operator callee args s) := by
  have hdata := hI.dataList hs hc hargs
  unfold Eval.applyTurn
  split
  · split
    · exact hdata
    · rename_i h hh
      split
      · exact hdata
      · exact hI.call hs (Array.mem_of_getElem? hh) hargs
  · split
    · exact hdata
    · rename_i p hp
      obtain ⟨hframe, hbody⟩ := hI.procedure hs hc hp
      unfold procedureTurn Store.bind
      cases hb : Store.argumentBindings p.parameters args with
      | error e => exact gives_failure hs
      | ok bindings =>
        exact hI.bodyTurn_newFrame hev hs hframe
          (fun q hq => hargs q.2 (Store.mem_of_argumentBindings hb hq)) hbody
  · exact hdata

theorem formTurn (hI : I.Kept hosts) (hev : I.Preserved ev) {form : Form} (hs : I.store s)
    (hf : I.frame s f) (hform : ∀ q ∈ form.parts, I.code s q) :
    I.Takes s (formTurn hosts ev f form s) := by
  have hset : ∀ x e, I.code s e → I.Gives s I.value
      (andThen (ev f e s) fun v s₁ => (.value .unspecified, s₁.set f x v)) := by
    intro x e he
    refine gives_andThen (hev f e s hs hf he) fun v s₁ h₁ hv => ?_
    have h₂ := hI.set x h₁.store (h₁.frame f hf) hv
    exact .of_later h₂ (gives_value h₂.store hI.unspecified)
  cases form with
  | constant e => exact gives_value hs (hI.data (hform e List.mem_cons_self))
  | define x e => exact hset x e (hform e List.mem_cons_self)
  | assign x e =>
    simp only [Eval.formTurn]
    split
    · exact hset x e (hform e List.mem_cons_self)
    · exact gives_failure hs
  | lambda parameters body =>
    simp only [Eval.formTurn, Store.newProcedure]
    cases hb : body.isEmpty with
    | true => exact gives_failure hs
    | false =>
      have hne : body ≠ [] := fun he => by simp [he] at hb
      obtain ⟨hlater, hv⟩ := hI.lambda hs hf hform hne
      exact Gives.of_later hlater (gives_value hlater.store hv)
  | branch test consequent alternative =>
    obtain ⟨htest, hrest⟩ := List.forall_mem_cons.1 hform
    obtain ⟨hcon, halt⟩ := List.forall_mem_cons.1 hrest
    refine takes_after (hev f test s hs hf htest) fun v s₁ h₁ _ => ?_
    have hon : ∀ e, I.code s e → I.Takes s₁ (.onward f e s₁) := fun e he =>
      ⟨.refl h₁.store, h₁.frame f hf, h₁.code e he⟩
    split
    · exact hon consequent hcon
    · split
      · exact hon _ (halt _ List.mem_cons_self)
      · exact gives_value h₁.store hI.unspecified
  | sequence body =>
    simp only [Eval.formTurn]
    split
    · exact gives_value hs hI.unspecified
    · exact bodyTurn hev hs hf hform
  | scope bindings body =>
    obtain ⟨hbs, hbody⟩ := List.forall_mem_append.1 hform
    refine takes_after (hI.evalLocals hev hs hf hbs) fun locals s₁ h₁ hlocals => ?_
    refine hI.bodyTurn_newFrame hev h₁.store (h₁.frame f hf) (fun p hp => ?_)
      fun e he => h₁.code e (hbody e he)
    rcases Bindings.mem_setAll hp with hp | hp
    · exact hlocals p hp
    · cases hp
  | application operator operands =>
    obtain ⟨ho, hos⟩ := List.forall_mem_cons.1 hform
    refine takes_after (hev f operator s hs hf ho) fun callee s₁ h₁ hc => ?_
    refine takes_after (evalEach hev h₁.store (h₁.frame f hf) fun q hq => h₁.code q (hos q hq))
      fun args s₂ h₂ hargs => ?_
    exact hI.applyTurn hev operator h₂.store (h₂.value callee hc) hargs

/-- **One turn of the loop keeps the invariant**, if its evaluator does. -/
theorem turn (hI : I.Kept hosts) (hev : I.Preserved ev) {e : Value} (hs : I.store s)
    (hf : I.frame s f) (he : I.code s e) : I.Takes s (turn hosts ev f e s) := by
  unfold Eval.turn
  split
  · rename_i x
    refine gives_settled hs fun v hv => ?_
    unfold evalSymbol at hv
    split at hv
    · cases hv
    · split at hv
      · rename_i hget
        cases hv
        exact hI.lookup hs hf hget
      · cases hv
  · exact gives_failure hs
  · exact gives_failure hs
  · obtain ⟨ho, hrest⟩ := hI.parts he
    split
    · exact gives_failure hs
    · rename_i form hform
      exact hI.formTurn hev hs hf
        (Form.forall_parts_of_read hI.parts ho (Expression.forall_items hI.parts hrest) hform)
  · exact gives_value hs (hI.data he)

/-! ## 6. The evaluator -/

/-- **Every evaluation keeps the invariant**, by induction on the fuel: turn after turn, and inside
    each turn by the evaluations nested in it. -/
theorem eval (hI : I.Kept hosts) (fuel : Nat) : I.Preserved (eval hosts fuel) := by
  induction fuel with
  | zero => exact fun f e s hs _ _ => ⟨.refl hs, nofun⟩
  | succ fuel ih =>
    intro f e s hs hf he
    have ht := hI.turn ih hs hf he
    rw [eval_succ]
    cases hturn : Eval.turn hosts (Eval.eval hosts fuel) f e s with
    | ended r =>
      rw [hturn] at ht
      exact ht
    | onward g e' s₁ =>
      rw [hturn] at ht
      obtain ⟨hlater, hg, he'⟩ := ht
      exact .of_later hlater (ih g e' s₁ hlater.store hg he')

end Kept

/-! ## 7. Programs -/

/-- A datum meets the invariant, whatever cells its pairs get. -/
def Reads (I : Invariant) (e : Datum) : Prop := ∀ s next, I.code s (e.label next).1

namespace Kept

open Session (globalFrame)

variable {hosts : Host.Table}

theorem evalDatum (hI : I.Kept hosts) (fuel : Nat) {e : Datum} (hs : I.store s)
    (hf : I.frame s globalFrame) (he : I.Reads e) :
    I.Gives s I.value (Session.evalDatum hosts fuel e s) := by
  have hlater : I.Later s (s.label e).2 := hI.effects _ hs
  exact .of_later hlater
    (hI.eval fuel globalFrame _ _ hlater.store (hlater.frame _ hf) (he _ s.effects.nextCell))

theorem inTurn {α : Type} {step : α → Store → Result Value} {as : List α} {last : Value}
    (hs : I.store s) (hlast : I.value s last)
    (hstep : ∀ a ∈ as, ∀ s₁, I.Later s s₁ → I.Gives s₁ I.value (step a s₁)) :
    I.Gives s I.value (Session.inTurn step last as s) := by
  induction as generalizing s last with
  | nil => exact gives_value hs hlast
  | cons a as ih =>
    refine gives_andThen (hstep a List.mem_cons_self s (.refl hs)) fun v s₁ h₁ hv => ?_
    exact ih h₁.store hv fun b hb s₂ h₂ => hstep b (List.mem_cons_of_mem a hb) s₂ (h₁.trans h₂)

/-- **Every run of a program keeps the invariant**, if the expressions of the program meet it. -/
theorem runSource (hI : I.Kept hosts) (fuel : Nat) {source : String} (hs : I.store s)
    (hf : I.frame s globalFrame)
    (hp : ∀ program, Program.parse source = .ok program → ∀ e ∈ program, I.Reads e) :
    I.Gives s I.value (Session.runSource hosts fuel source s) := by
  unfold Session.runSource
  split
  · exact gives_failure hs
  · rename_i program hprogram
    exact inTurn hs hI.unspecified fun e he s₁ h₁ =>
      hI.evalDatum fuel h₁.store (h₁.frame _ hf) (hp program hprogram e he)

end Kept

end Invariant

end Eval

end HostedLisp
