import HostedLisp.Proofs.Evaluation.Adequacy
import HostedLisp.Proofs.Evaluation.Invariants
import HostedLisp.Proofs.Evaluation.Simulation
import HostedLisp.Proofs.Evaluation.Steps

/-!
# What is evaluated

Code and data are expressions alike, and procedures carry code from where it was read to where it is
applied. Which expressions an evaluation evaluates is not visible in its result. But it is visible
in what the result depends on: one turn of the loop asks its evaluator for a result exactly if an
evaluator that answers this one question otherwise can make the turn come out otherwise.

* `Upholds` -- what evaluation does to a store, as long as only code is evaluated, keeps a condition
  on it;
* `Asks` -- a turn depends on what an expression comes to;
* `Evaluated` -- what an evaluation evaluates, at any depth;
* `Upholds.eval` -- **the condition is kept**, and all failures can be accounted for;
* `Upholds.of_evaluated` -- **only code is evaluated**, and the condition holds whenever it is;
* `Written` -- all procedures were made by code, which is such a condition.
-/

namespace HostedLisp

/-! ## 1. Forms of code -/

namespace Expression

theorem items_subset_restItems {ι : Type} (e : Expression ι) : e.items ⊆ e.restItems := by
  cases e with
  | pair => exact fun _ h => h
  | _ => exact nofun

end Expression

namespace Form

/-- The forms of a pair evaluate its operator, its operands and items of them. -/
theorem forall_evaluated_of_read {P : Value → Prop} (hP : ∀ {e}, P e → ∀ q ∈ e.items, P q)
    {operator : Value} {operands : List Value} {form : Form} (ho : P operator)
    (hs : ∀ q ∈ operands, P q) (h : read operator operands = .ok form) :
    ∀ q ∈ form.evaluated, P q := by
  unfold read at h
  split at h
  · rename_i k _
    cases k with
    | quote =>
      simp only [readSpecial] at h
      split at h
      · cases h
        exact List.forall_mem_nil _
      · cases h
    | define | assign =>
      simp only [readSpecial] at h
      split at h
      · cases h
      · rename_i hread
        cases h
        exact fun q hq => List.mem_singleton.1 hq ▸ hs _ (mem_of_readBinding hread)
    | lambda =>
      simp only [readSpecial] at h
      split at h
      · cases h
      · split at h
        · cases h
          exact (List.forall_mem_cons.1 hs).2
        · cases h
    | branch =>
      simp only [readSpecial] at h
      split at h
      · cases h
        exact hs
      · cases h
        exact hs
      · cases h
    | sequence =>
      cases h
      exact hs
    | scope =>
      simp only [readSpecial] at h
      split at h
      · split at h
        · obtain ⟨hbindings, hbody⟩ := List.forall_mem_cons.1 hs
          cases h
          refine List.forall_mem_append.2 ⟨fun q hq => ?_, hbody⟩
          obtain ⟨b, hb, hlocal⟩ := List.mem_filterMap.1 hq
          cases hread : readLocal b with
          | error err =>
            rw [hread] at hlocal
            cases hlocal
          | ok p =>
            rw [hread] at hlocal
            cases hlocal
            exact hP (hP hbindings b hb) p.2 (mem_of_readLocal hread)
        · cases h
      · cases h
  · cases h
    exact List.forall_mem_cons.2 ⟨ho, hs⟩

/-- Where the items of code are code, so is all that its forms evaluate. -/
theorem ReadFrom.evaluated {code : Value → Prop} (hcode : ∀ {e}, code e → ∀ q ∈ e.items, code q)
    {form : Form} (h : ReadFrom code form) : ∀ q ∈ form.evaluated, code q := by
  obtain ⟨c, a, b, hpair, hread⟩ := h
  obtain ⟨ha, hb⟩ := List.forall_mem_cons.1 (hcode hpair)
  exact forall_evaluated_of_read hcode ha (fun q hq => hb q (b.items_subset_restItems hq)) hread

end Form

namespace Eval

/-! ## 2. Conditions on stores -/

/-- The store meets the condition `J` as long as only code is evaluated: all that evaluation does
    then keeps it so, and the bodies of procedures are code. -/
structure Upholds (J : Store → Prop) (code : Value → Prop) : Prop where
  evaluated : ∀ {form}, Form.ReadFrom code form → ∀ q ∈ form.evaluated, code q
  effects : ∀ {s} (w : Effects), J s → J (s.withEffects w)
  /-- Names that are defined and set are no keywords. -/
  set : ∀ {s f x} (v : Value), J s → Keyword.ofName? x = none → J (s.set f x v)
  lambda : ∀ {s f parameters body}, J s → Form.ReadFrom code (.lambda parameters body) →
    J { s with procedures := s.procedures.push ⟨parameters, body, f⟩ }
  body : ∀ {s} {id : Nat} {p : Procedure}, J s → s.procedures[id]? = some p →
    ∀ q ∈ p.body, code q
  /-- Names that a scope binds are no keywords. -/
  scope : ∀ {s f bindings}, J s → (∀ b ∈ bindings, Keyword.ofName? b.1 = none) →
    J (s.newFrame (some f) bindings).2
  /-- A call binds parameters, whatever they are called. -/
  call : ∀ {s} {id : Nat} {p : Procedure} {args bindings}, J s → s.procedures[id]? = some p →
    Store.argumentBindings p.parameters args = .ok bindings →
    J (s.newFrame (some p.frame) bindings).2

/-- The store that is left meets the condition, and a failure can be accounted for. -/
structure Leaves (J : Store → Prop) (hosts : Host.Table) (code : Value → Prop)
    (r : Result Value) : Prop where
  store : J r.2
  failure : ∀ err, r.1 = .failure err → Raised hosts code err

/-- An evaluation beside itself, in stores that meet the condition. -/
def alone (J : Store → Prop) (code : Value → Prop) : Simulation where
  procedure := id
  frame := id
  store s s' := s' = s ∧ J s
  live _ _ := True
  code := code

section Alone

variable {J : Store → Prop} {code : Value → Prop} {hosts : Host.Table} {s s₁ : Store}

@[simp] theorem rename_alone (v : Value) : v.rename (alone J code).procedure = v := v.rename_id

theorem alone_goes (h : J s₁) : (alone J code).Goes s s₁ s₁ := ⟨⟨rfl, h⟩, fun _ _ => trivial⟩

theorem alone_enters {f : Nat} {bindings : Bindings} (h : J (s.newFrame (some f) bindings).2) :
    (alone J code).Enters s s f bindings where
  goes := by
    rw [show bindings.rename (alone J code).procedure = bindings from bindings.rename_id]
    exact alone_goes h
  frame := rfl
  live := trivial

theorem Upholds.kept (h : Upholds J code) (hosts : Host.Table) : (alone J code).Kept hosts where
  evaluated := h.evaluated
  host g _ := g.respects_id
  effects {s s'} hs := by rw [hs.1]
  perform {s s'} w hs := by
    rw [hs.1]
    exact alone_goes (h.effects w hs.2)
  lookup {s s' f} hs _ x := by
    have hsame : Expression.rename (alone J code).procedure = (id : Value → Value) :=
      Expression.rename_id_eq
    rw [hs.1, hsame, Option.map_id]
    rfl
  set {s s' f x} v hs _ hx := by
    rw [hs.1, rename_alone]
    exact alone_goes (h.set v hs.2 hx)
  lambda {s s' f parameters body} hs _ hform _ := by
    have hsame : Procedure.rename (alone J code).procedure (alone J code).frame = id :=
      Procedure.rename_id
    rw [hs.1, hsame]
    exact ⟨alone_goes (h.lambda hs.2 hform), rfl⟩
  procedure {s s'} hs i := by
    have hsame : Procedure.rename (alone J code).procedure (alone J code).frame = id :=
      Procedure.rename_id
    rw [hs.1, hsame, Option.map_id]
    rfl
  captured hs hp := ⟨trivial, h.body hs.2 hp⟩
  scope {s s' f bindings} hs _ hb := by
    rw [hs.1]
    exact alone_enters (h.scope hs.2 hb)
  call {s s' id p args bindings} hs hp hb := by
    rw [hs.1]
    exact alone_enters (h.call hs.2 hp hb)

/-- What an evaluation comes to beside itself is the same. -/
theorem eq_of_agrees {P : Value → Prop} {r r' : Result Value}
    (h : (alone J code).Agrees hosts s P (.rename id) r r') : r' = r := by
  have houtcome := h.outcome
  rw [Expression.rename_id_eq, Outcome.map_id] at houtcome
  exact Prod.ext houtcome h.goes.store.1

theorem eq_of_takes {t t' : Turn} (h : (alone J code).Takes hosts s t t') : t' = t := by
  cases t with
  | ended r =>
    cases t' with
    | ended r' => exact congrArg Turn.ended (eq_of_agrees h)
    | onward => exact h.elim
  | onward f e s₁ =>
    cases t' with
    | ended => exact h.elim
    | onward f' e' s₁' =>
      obtain ⟨⟨hgoes, -, -⟩, hf, he⟩ := h
      have he' : e' = e := he.trans e.rename_id
      have hf' : f' = f := hf
      rw [hf', he', hgoes.store.1]

/-- Evaluators that agree on code take the same turns. -/
theorem Upholds.takes (h : Upholds J code) {ev ev' : Evaluator}
    (hev : (alone J code).Follows hosts ev ev') (f : Nat) {e : Value} (hs : J s) (he : code e) :
    (alone J code).Takes hosts s (turn hosts ev f e s) (turn hosts ev' f e s) := by
  have hlive : (alone J code).live s f := trivial
  have htakes := (h.kept hosts).turn hev ⟨rfl, hs⟩ hlive he
  rwa [rename_alone] at htakes

/-- **The condition is kept by every evaluation of code**, and its failures can be accounted
    for. -/
theorem Upholds.eval (h : Upholds J code) (hosts : Host.Table) (fuel f : Nat) {e : Value}
    (hs : J s) (he : code e) : Leaves J hosts code (eval hosts fuel f e s) := by
  have hagrees := (h.kept hosts).eval fuel f e s s ⟨rfl, hs⟩ trivial he
  exact ⟨hagrees.goes.store.2, hagrees.failure⟩

/-! ## 3. What is evaluated -/

/-- The turn that `e` takes in the frame `f` depends on what `ev` makes of `q` in the frame `g`,
    with the store `t`: with another answer to this one question it can come out otherwise. -/
def Asks (hosts : Host.Table) (ev : Evaluator) (f : Nat) (e : Value) (s : Store) (g : Nat)
    (q : Value) (t : Store) : Prop :=
  ∃ ev' : Evaluator, (∀ g' q' t', ¬(g' = g ∧ q' = q ∧ t' = t) → ev' g' q' t' = ev g' q' t') ∧
    turn hosts ev' f e s ≠ turn hosts ev f e s

/-- A pair that begins with no keyword asks for its operator. -/
theorem asks_operator {ev : Evaluator} {f : Nat} {e operator : Value} {operands : List Value}
    (he : IsCombination operator operands e) : Asks hosts ev f e s f operator s := by
  have hanswer : ∀ r : Result Value, ∃ ev' : Evaluator, ev' f operator s = r ∧
      ∀ g q t, ¬(g = f ∧ q = operator ∧ t = s) → ev' g q t = ev g q t :=
    fun r => ⟨fun g q t => if g = f ∧ q = operator ∧ t = s then r else ev g q t,
      if_pos ⟨rfl, rfl, rfl⟩, fun _ _ _ h => if_neg h⟩
  -- of two answers that end the turn, one makes it another turn
  by_cases hturn : turn hosts ev f e s = .ended (.unfinished, s)
  · obtain ⟨ev', hev, hsame⟩ := hanswer (.failure .divisionByZero, s)
    refine ⟨ev', hsame, ?_⟩
    rw [hturn, turn_of_isCombination he, formTurn, hev]
    exact nofun
  · obtain ⟨ev', hev, hsame⟩ := hanswer (.unfinished, s)
    refine ⟨ev', hsame, fun h => hturn ?_⟩
    rw [← h, turn_of_isCombination he, formTurn, hev]
    rfl

/-- What is evaluated while `e` is, with the frame and the store that it is evaluated with: the
    expression itself, what a turn asks for, and what the loop goes on with. -/
inductive Evaluated (hosts : Host.Table) :
    Nat → Nat → Value → Store → Nat → Value → Store → Prop where
  | self {fuel f : Nat} {e : Value} {s : Store} : Evaluated hosts (fuel + 1) f e s f e s
  | nested {fuel f g f' : Nat} {e q e' : Value} {s t s' : Store}
      (ha : Asks hosts (eval hosts fuel) f e s g q t) (hr : Evaluated hosts fuel g q t f' e' s') :
      Evaluated hosts (fuel + 1) f e s f' e' s'
  | onward {fuel f g f' : Nat} {e q e' : Value} {s t s' : Store}
      (ht : turn hosts (eval hosts fuel) f e s = .onward g q t)
      (hr : Evaluated hosts fuel g q t f' e' s') : Evaluated hosts (fuel + 1) f e s f' e' s'

/-- **A turn asks for code only**, and with a store that meets the condition: another evaluator
    that gives the same answers there takes the same turn. -/
theorem Upholds.code_of_asks (h : Upholds J code) {fuel f g : Nat} {e q : Value} {t : Store}
    (hs : J s) (he : code e) (ha : Asks hosts (Eval.eval hosts fuel) f e s g q t) :
    J t ∧ code q := by
  by_contra hno
  obtain ⟨ev', hev', hne⟩ := ha
  have hfollows : (alone J code).Follows hosts (Eval.eval hosts fuel) ev' := by
    intro g' q' t' t'' hstore hlive hcode
    obtain ⟨rfl, ht'⟩ := hstore
    have hsame : ev' g' q' t'' = Eval.eval hosts fuel g' q' t'' := by
      refine hev' g' q' t'' ?_
      rintro ⟨-, rfl, rfl⟩
      exact hno ⟨ht', hcode⟩
    have hself := (h.kept hosts).eval fuel g' q' t'' t'' ⟨rfl, ht'⟩ hlive hcode
    rw [rename_alone] at hself ⊢
    show (alone J code).Agrees hosts t'' _ _ _ (ev' g' q' t'')
    rw [hsame]
    exact hself
  exact hne (eq_of_takes (h.takes hfollows f hs he))

/-- **Only code is evaluated**, at any depth, and with stores that meet the condition. -/
theorem Upholds.of_evaluated (h : Upholds J code) {fuel f g : Nat} {e q : Value} {t : Store}
    (hs : J s) (he : code e) (hq : Evaluated hosts fuel f e s g q t) : J t ∧ code q := by
  induction hq with
  | self => exact ⟨hs, he⟩
  | nested ha _ ih =>
    obtain ⟨ht, hq⟩ := h.code_of_asks hs he ha
    exact ih ht hq
  | @onward fuel f _ _ _ _ _ _ _ _ ht _ ih =>
    have htakes := h.takes ((h.kept hosts).eval fuel) f hs he
    rw [ht] at htakes
    obtain ⟨⟨hgoes, -, hq⟩, -⟩ := htakes
    exact ih hgoes.store.2 hq

end Alone

/-! ## 4. Procedures made by code -/

/-- All procedures were made by code. -/
def Written (code : Value → Prop) (s : Store) : Prop :=
  ∀ (id : Nat) (p : Procedure), s.procedures[id]? = some p →
    Form.ReadFrom code (.lambda p.parameters p.body)

section Written

variable {code : Value → Prop} {s s₁ : Store}

theorem Written.of_procedures_eq (h : Written code s) (hp : s₁.procedures = s.procedures) :
    Written code s₁ := by
  intro id p hid
  rw [hp] at hid
  exact h id p hid

theorem Written.push (h : Written code s) {parameters body : List Value} (f : Nat)
    (hform : Form.ReadFrom code (.lambda parameters body)) :
    Written code { s with procedures := s.procedures.push ⟨parameters, body, f⟩ } := by
  intro id p hid
  rw [Array.getElem?_push] at hid
  split at hid
  · cases hid
    exact hform
  · exact h id p hid

/-- **Evaluation of code makes procedures of code only.** -/
theorem upholds_written (hcode : ∀ {e}, code e → ∀ q ∈ e.items, code q) :
    Upholds (Written code) code where
  evaluated hform := hform.evaluated hcode
  effects _ h := h.of_procedures_eq rfl
  set _ h _ := h.of_procedures_eq (Store.procedures_set _ _ _ _)
  lambda h hform := h.push _ hform
  body h hp := (h _ _ hp).evaluated hcode
  scope h _ := h.of_procedures_eq rfl
  call h _ _ := h.of_procedures_eq rfl

end Written

end Eval

end HostedLisp
