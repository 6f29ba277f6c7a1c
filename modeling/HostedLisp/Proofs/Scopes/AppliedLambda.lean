import HostedLisp.Proofs.Evaluation.Adequacy
import HostedLisp.Proofs.Evaluation.Invariants
import HostedLisp.Proofs.Evaluation.Simulation

/-!
# A scope is a procedure applied at once

`(let ((x e) ...) b ...)` and `((lambda (x ...) b ...) e ...)` evaluate the same expressions in the
same frames. What the second one does in addition is to make a procedure, before everything else.
It is the value of no name and no part of any value, so nothing comes of it but a gap in the
numbers: procedures that are made later come one number further on.

* `Expression.Refers`, `Store.Refers` -- which procedures are referred to;
* `shift`, `Inserts` -- the numbers of procedures beside an extra one, and a store that has it;
* `inserting_kept` -- having one procedure more is kept by all that evaluation does;
* `evalLocals_agrees` -- the bindings of a scope and the operands come to the same;
* `eval_scope_lambda` -- **a scope does what the procedure with its body does, applied at once**.
-/

namespace HostedLisp

/-! ## 1. References -/

namespace Expression

variable {ι : Type}

/-- `P` holds of the numbers of all procedures in the expression. -/
def Refers (P : Nat → Prop) : Expression ι → Prop
  | pair _ first rest => first.Refers P ∧ rest.Refers P
  | procedure id => P id
  | _ => True

instance decidableRefers (P : Nat → Prop) [DecidablePred P] :
    (e : Expression ι) → Decidable (e.Refers P)
  | pair _ first rest => @instDecidableAnd _ _ (decidableRefers P first) (decidableRefers P rest)
  | procedure id => inferInstanceAs (Decidable (P id))
  | number _ | symbol _ | string _ | boolean _ | emptyList | hostFunction _ _ | unspecified =>
    isTrue trivial

/-- Other numbers for other procedures change nothing. -/
theorem Refers.rename_eq {P : Nat → Prop} {r : Nat → Nat} (hr : ∀ id, P id → r id = id)
    {e : Expression ι} (h : e.Refers P) : e.rename r = e := by
  induction e with
  | pair c a b iha ihb => rw [rename, iha h.1, ihb h.2]
  | procedure id => rw [rename, hr id h]
  | _ => rfl

theorem map_rename_eq {P : Nat → Prop} {r : Nat → Nat} (hr : ∀ id, P id → r id = id)
    {es : List (Expression ι)} (h : ∀ e ∈ es, e.Refers P) : es.map (.rename r) = es :=
  (List.map_congr_left fun e he => (h e he).rename_eq hr).trans (List.map_id es)

theorem refers_rename {P : Nat → Prop} {r : Nat → Nat} (hr : ∀ id, P (r id))
    (e : Expression ι) : (e.rename r).Refers P := by
  induction e with
  | pair c a b iha ihb => exact ⟨iha, ihb⟩
  | procedure id => exact hr id
  | _ => trivial

end Expression

namespace Store

/-- All that is bound refers to procedures of `P` only, and so do these themselves. -/
structure Refers (P : Nat → Prop) (s : Store) : Prop where
  bound : ∀ f, ∀ b ∈ s.bindingsOf f, b.2.Refers P
  parts : ∀ (id : Nat) (p : Procedure), P id → s.procedures[id]? = some p →
    ∀ q ∈ p.parameters ++ p.body, q.Refers P

/-- Every procedure that is referred to exists. -/
def Closed (s : Store) : Prop := s.Refers (· < s.procedures.size)

/-! ## 2. A procedure more -/

/-- The number of a procedure where an extra one has the number `n`. -/
def shift (n id : Nat) : Nat := if id < n then id else id + 1

section Shift

variable {n id : Nat}

theorem shift_of_lt (h : id < n) : shift n id = id := if_pos h

theorem shift_of_le (h : n ≤ id) : shift n id = id + 1 := if_neg (Nat.not_lt.2 h)

theorem shift_injective (n : Nat) : Function.Injective (shift n) := by
  intro i j h
  unfold shift at h
  grind

/-- No other procedure gets the number of the extra one. -/
theorem shift_ne (n id : Nat) : shift n id ≠ n := by
  unfold shift
  grind

end Shift

/-- The store `s'` is `s` with the extra procedure `p`, whose number is `n`. -/
structure Inserts (n : Nat) (p : Procedure) (s s' : Store) : Prop where
  le : n ≤ s.procedures.size
  size : s'.procedures.size = s.procedures.size + 1
  frames : s'.frames = s.frames.map fun g => ⟨g.parent, g.bindings.rename (shift n)⟩
  procedure : ∀ i, s'.procedures[shift n i]? = s.procedures[i]?.map (.rename (shift n) id)
  extra : s'.procedures[n]? = some p
  effects : s'.effects = s.effects

namespace Inserts

variable {n : Nat} {p : Procedure} {s s' : Store}

/-- A procedure that was just made is an extra one. -/
theorem of_push (hs : s.Closed) (p : Procedure) :
    Inserts s.procedures.size p s { s with procedures := s.procedures.push p } where
  le := Nat.le_refl _
  size := Array.size_push p
  frames := by
    refine Array.ext (Array.size_map).symm fun g hg _ => ?_
    have hbound := hs.bound g
    rw [bindingsOf, Array.getElem?_eq_getElem hg] at hbound
    have hsame : Bindings.rename (shift s.procedures.size) s.frames[g].bindings
        = s.frames[g].bindings := by
      refine (List.map_congr_left fun b hb => ?_).trans (List.map_id _)
      rw [(hbound b hb).rename_eq fun _ => shift_of_lt]
      rfl
    rw [Array.getElem_map, hsame]
  procedure i := by
    by_cases hi : i < s.procedures.size
    · have hsame : ∀ es : List Value, (∀ q ∈ es, q.Refers (· < s.procedures.size)) →
          es.map (.rename (shift s.procedures.size)) = es :=
        fun es => Expression.map_rename_eq fun _ => shift_of_lt
      obtain ⟨hparameters, hbody⟩ :=
        List.forall_mem_append.1 (hs.parts i _ hi (Array.getElem?_eq_getElem hi))
      rw [shift_of_lt hi, Array.getElem?_push_lt hi, Array.getElem?_eq_getElem hi, Option.map_some,
        Procedure.rename, hsame _ hparameters, hsame _ hbody]
      rfl
    · have hle : s.procedures.size ≤ i := Nat.not_lt.1 hi
      rw [shift_of_le hle, Array.getElem?_eq_none hle, Array.getElem?_eq_none (by simp; omega)]
      rfl
  extra := by simp
  effects := rfl

theorem size_frames (h : Inserts n p s s') : s'.frames.size = s.frames.size := by
  rw [h.frames, Array.size_map]

theorem shift_size (h : Inserts n p s s') : shift n s.procedures.size = s'.procedures.size := by
  rw [shift_of_le h.le, h.size]

theorem bindingsOf (h : Inserts n p s s') (g : Nat) :
    s'.bindingsOf g = (s.bindingsOf g).rename (shift n) := by
  rw [Store.bindingsOf, Store.bindingsOf, h.frames, Array.getElem?_map]
  cases s.frames[g]? <;> rfl

/-- **Nothing refers to the extra procedure**, since no other one has its number. -/
theorem refers (h : Inserts n p s s') : s'.Refers (· ≠ n) where
  bound f b hb := by
    rw [h.bindingsOf] at hb
    obtain ⟨a, -, rfl⟩ := List.mem_map.1 hb
    exact Expression.refers_rename (shift_ne n) a.2
  parts id q hid hq e he := by
    obtain ⟨i, rfl⟩ : ∃ i, shift n i = id := by
      by_cases hlt : id < n
      · exact ⟨id, shift_of_lt hlt⟩
      · exact ⟨id - 1, by rw [shift_of_le (by omega)]; omega⟩
    rw [h.procedure i, Option.map_eq_some_iff] at hq
    obtain ⟨a, -, rfl⟩ := hq
    rw [Procedure.rename, ← List.map_append] at he
    obtain ⟨e, -, rfl⟩ := List.mem_map.1 he
    exact Expression.refers_rename (shift_ne n) e

theorem chain (h : Inserts n p s s') (f : Nat) : s'.chain f = s.chain f := by
  rw [Store.chain, Store.chain, h.size_frames]
  refine chainFrom_congr (fun g => ?_) _ _
  rw [h.frames, Array.getElem?_map, Option.map_map]
  rfl

/-- Every frame sees the same, with other numbers for procedures. -/
theorem get? (h : Inserts n p s s') (f : Nat) (x : String) :
    s'.get? f x = (s.get? f x).map (.rename (shift n)) := by
  rw [Store.get?, Store.get?, h.chain, List.map_findSome?]
  congr 1
  funext g
  rw [h.bindingsOf, Bindings.get?_rename]
  rfl

theorem define (h : Inserts n p s s') (g : Nat) (x : String) (v : Value) :
    Inserts n p (s.define g x v) (s'.define g x (v.rename (shift n))) where
  le := h.le
  size := h.size
  frames := by
    refine Array.ext_getElem? fun k => ?_
    rw [Store.define, Store.define, Array.getElem?_map, frames_modifyBindings,
      frames_modifyBindings, h.frames, Array.getElem?_map]
    split
    · cases s.frames[k]? with
      | none => rfl
      | some frame => simp only [Option.map_some, Bindings.set_rename]
    · rfl
  procedure := h.procedure
  extra := h.extra
  effects := h.effects

theorem set (h : Inserts n p s s') (f : Nat) (x : String) (v : Value) :
    Inserts n p (s.set f x v) (s'.set f x (v.rename (shift n))) := by
  have htarget : s'.target? f x = s.target? f x := by
    simp only [target?, owner?, h.chain, h.bindingsOf, Bindings.binds_rename]
  rw [Store.set, Store.set, htarget]
  cases s.target? f x with
  | none => exact h
  | some g => exact h.define g x v

theorem withEffects (h : Inserts n p s s') (w : Effects) :
    Inserts n p (s.withEffects w) (s'.withEffects w) :=
  ⟨h.le, h.size, h.frames, h.procedure, h.extra, rfl⟩

theorem newFrame (h : Inserts n p s s') (f : Nat) (b : Bindings) :
    Inserts n p (s.newFrame (some f) b).2
      (s'.newFrame (some f) (b.rename (shift n))).2 where
  le := h.le
  size := h.size
  frames := by rw [frames_newFrame, frames_newFrame, Array.map_push, h.frames]
  procedure := h.procedure
  extra := h.extra
  effects := h.effects

/-- A procedure that is made next comes one number further on. -/
theorem push (h : Inserts n p s s') (q : Procedure) :
    Inserts n p { s with procedures := s.procedures.push q }
      { s' with procedures := s'.procedures.push (q.rename (shift n) id) } where
  le := by rw [Array.size_push]; exact Nat.le_succ_of_le h.le
  size := by rw [Array.size_push, Array.size_push, h.size]
  frames := h.frames
  procedure i := by
    have hnumber : shift n i = s'.procedures.size ↔ i = s.procedures.size := by
      rw [← h.shift_size]
      exact (shift_injective n).eq_iff
    simp only [Array.getElem?_push, hnumber, h.procedure i]
    split <;> rfl
  extra := by
    have hlt : n < s'.procedures.size := by
      rw [h.size]
      exact Nat.lt_succ_of_le h.le
    rw [Array.getElem?_push_lt hlt, ← h.extra, Array.getElem?_eq_getElem hlt]
  effects := h.effects

end Inserts

end Store

namespace Eval

open Store (shift Inserts)

/-- The second evaluation has the extra procedure `p`, whose number is `n`. Frames have the same
    numbers in both. -/
def inserting (n : Nat) (p : Procedure) : Simulation where
  procedure := shift n
  frame := id
  store := Inserts n p
  live _ _ := True
  code _ := True

section Inserting

variable {n : Nat} {p : Procedure} {s s' s₁ s₁' : Store}

theorem inserting_goes (h : Inserts n p s₁ s₁') : (inserting n p).Goes s s₁ s₁' :=
  ⟨h, fun _ _ => trivial⟩

theorem inserting_enters (h : Inserts n p s s') (f : Nat) (bindings : Bindings) :
    (inserting n p).Enters s s' f bindings :=
  ⟨inserting_goes (h.newFrame f bindings), h.size_frames.symm, trivial⟩

/-- **All that evaluation does keeps the extra procedure out of it**, if no host function sees the
    numbers of procedures. -/
theorem inserting_kept {hosts : Host.Table} (hhosts : ∀ h ∈ hosts, h.Uniform) (n : Nat)
    (p : Procedure) : (inserting n p).Kept hosts where
  evaluated _ _ _ := trivial
  host h hh := hhosts h hh _ (Store.shift_injective n)
  effects h := h.effects
  perform w h := inserting_goes (h.withEffects w)
  lookup h _ x := h.get? _ x
  set v h _ _ := inserting_goes (h.set _ _ v)
  lambda h _ _ _ := ⟨inserting_goes (h.push _), h.shift_size⟩
  procedure h := h.procedure
  captured _ _ := ⟨trivial, fun _ _ => trivial⟩
  scope h _ _ := inserting_enters h _ _
  call h _ _ := inserting_enters h _ _

end Inserting

/-! ## 3. Bindings and operands -/

/-- `e` is `(let ((x q) ...) b ...)`, with the names and expressions `xs` and the body given. -/
def IsScope (xs : List (String × Value)) (body : List Value) (e : Value) : Prop :=
  ∃ bindings, IsForm .scope (bindings :: body) e ∧ bindings.isList = true ∧
    bindings.items.map Expression.items = xs.map fun p => [.symbol p.1, p.2]

/-- `e` is `((lambda (x ...) b ...) q ...)`, with the names and expressions `xs` and the body
    given. -/
def IsAppliedLambda (xs : List (String × Value)) (body : List Value) (e : Value) : Prop :=
  ∃ operator parameters, IsCombination operator (xs.map Prod.snd) e ∧
    IsForm .lambda (parameters :: body) operator ∧ parameters.isList = true ∧
    parameters.items = xs.map fun p => .symbol p.1

section Scopes

variable {hosts : Host.Table} {ev ev' : Evaluator} {f : Nat} {s s' : Store}
  {xs : List (String × Value)} {bs body : List Value} {e e' : Value}

/-- **The bindings of a scope and the operands of a call come to the same**: the same expressions
    are evaluated in the same order, and reading ordinary bindings does not fail in between. -/
theorem evalLocals_agrees {S : Simulation} (hev : S.Follows hosts ev ev')
    (hbs : bs.map Expression.items = xs.map fun p => [.symbol p.1, p.2])
    (hx : ∀ p ∈ xs, Keyword.ofName? p.1 = none) (hcode : ∀ p ∈ xs, S.code p.2)
    (hs : S.store s s') (hf : S.live s f) :
    S.Agrees hosts s (fun locals => locals.map Prod.fst = xs.map Prod.fst)
      (List.map fun p => p.2.rename S.procedure) (evalLocals (ev f) bs s)
      (evalEach (ev' (S.frame f)) ((xs.map Prod.snd).map (.rename S.procedure)) s') := by
  induction xs generalizing bs s s' with
  | nil =>
    cases List.map_eq_nil_iff.1 hbs
    exact Simulation.agrees_value hs rfl rfl
  | cons p xs ih =>
    obtain ⟨b, bs, rfl, hb, hbs⟩ := List.map_eq_cons_iff.1 hbs
    obtain ⟨hp, hx⟩ := List.forall_mem_cons.1 hx
    obtain ⟨hq, hcode⟩ := List.forall_mem_cons.1 hcode
    rw [evalLocals, readLocal_symbol hb hp, settled_ok, andThen_value]
    refine Simulation.agrees_andThen (hev f p.2 s s' hs hf hq) fun v s₁ s₁' h₁ _ => ?_
    refine Simulation.agrees_andThen (ih hbs hx hcode h₁.store (h₁.live f hf))
      fun locals s₂ s₂' h₂ hlocals => ?_
    exact Simulation.agrees_value h₂.store rfl (congrArg (p.1 :: ·) hlocals)

/-- A scope takes at least two turns. -/
theorem not_finished_isScope (hosts : Host.Table) (f : Nat) (s : Store) (he : IsScope xs body e)
    (hx : ∀ p ∈ xs, Keyword.ofName? p.1 = none) (hbody : body ≠ []) :
    (eval hosts 1 f e s).1 = .unfinished := by
  obtain ⟨bindings, he, hlist, hbs⟩ := he
  obtain ⟨b, body, rfl⟩ := List.exists_cons_of_ne_nil hbody
  rw [eval_succ, turn_of_isForm he (readSpecial_scope hlist), formTurn]
  cases xs with
  | nil =>
    rw [List.map_eq_nil_iff.1 hbs]
    cases body <;> rfl
  | cons p xs =>
    obtain ⟨b, bs, hitems, hb, -⟩ := List.map_eq_cons_iff.1 hbs
    rw [hitems, evalLocals, readLocal_symbol hb (hx p List.mem_cons_self)]
    rfl

/-- The expressions and the body of a scope refer to nothing that the scope does not refer to. -/
theorem IsScope.refers {P : Nat → Prop} (he : IsScope xs body e) (h : e.Refers P) :
    (∀ p ∈ xs, p.2.Refers P) ∧ ∀ q ∈ body, q.Refers P := by
  obtain ⟨bindings, ⟨cell, rest, rfl, hitems⟩, -, hbs⟩ := he
  have hparts : ∀ {c} {a b : Value}, (Expression.pair c a b).Refers P → a.Refers P ∧ b.Refers P :=
    id
  have hall := Expression.forall_items hparts h.2
  rw [hitems] at hall
  obtain ⟨hbindings, hbody⟩ := List.forall_mem_cons.1 hall
  refine ⟨fun p hp => ?_, hbody⟩
  have hmem : [.symbol p.1, p.2] ∈ bindings.items.map Expression.items :=
    hbs ▸ List.mem_map_of_mem hp
  obtain ⟨b, hb, hitems⟩ := List.mem_map.1 hmem
  have hq : p.2 ∈ b.items := by simp [hitems]
  exact Expression.forall_items hparts (Expression.forall_items hparts hbindings b hb) p.2 hq

/-! ## 4. Scopes and procedures -/

/-- The two take corresponding turns, if the procedure has been made. -/
theorem takes_isScope {n : Nat} {p : Procedure}
    (hev : (inserting n p).Follows hosts ev ev) (hp : p = ⟨xs.map fun q => .symbol q.1, body, f⟩)
    (hbs : bs.map Expression.items = xs.map fun p => [.symbol p.1, p.2])
    (hx : ∀ p ∈ xs, Keyword.ofName? p.1 = none) (hes : ∀ q ∈ xs, q.2.Refers (· < n))
    (hbody : ∀ q ∈ body, q.Refers (· < n)) (hs : Inserts n p s s') (operator : Value) :
    (inserting n p).Takes hosts s (formTurn hosts ev f (.scope bs body) s)
      (.after (evalEach (ev f) (xs.map Prod.snd) s') fun args s =>
        applyTurn hosts ev operator (.procedure n) args s) := by
  have hsame : ∀ es : List Value, (∀ q ∈ es, q.Refers (· < n)) →
      es.map (.rename (inserting n p).procedure) = es :=
    fun es => Expression.map_rename_eq fun _ => Store.shift_of_lt
  have hlive : (inserting n p).live s f := trivial
  have hlocals := evalLocals_agrees hev hbs hx (fun _ _ => trivial) hs hlive
  rw [hsame _ (List.forall_mem_map.2 hes)] at hlocals
  refine Simulation.takes_after hlocals fun locals s₁ s₁' h₁ hnames => ?_
  -- the call binds the names of the scope to its values
  have hcall : s₁'.procedure? (.procedure n) = some p := h₁.store.extra
  have hparameters : p.parameters = (locals.map Prod.fst).map .symbol := by
    rw [hnames, hp, List.map_map]
    rfl
  have harity : (locals.map fun q => q.2.rename (shift n)).length = p.parameters.length := by
    rw [hparameters, List.length_map, List.length_map, List.length_map]
  have happly : applyTurn hosts ev operator (.procedure n)
      (locals.map fun q => q.2.rename (shift n)) s₁' = bodyTurn ev s₁'.frames.size p.body
        (s₁'.newFrame (some p.frame)
          (Bindings.setAll [] (locals.map fun q => (q.1, q.2.rename (shift n))))).2 := by
    rw [applyTurn_of_procedure hcall, procedureTurn, bind_of_symbols harity hparameters,
      List.zip_map']
    rfl
  have hcode : ∀ q ∈ body, (inserting n p).code q := fun _ _ => trivial
  have henter := Simulation.Kept.enterTurn hev
    (inserting_enters h₁.store f (Bindings.setAll [] locals)) hcode
  rw [hsame body hbody, Bindings.setAll_rename] at henter
  show (inserting n p).Takes hosts s₁ _ (applyTurn hosts ev operator (.procedure n)
    (locals.map fun q => q.2.rename (shift n)) s₁')
  rw [happly, hp]
  rw [hp] at henter
  exact henter

/-- A call takes at least two turns. -/
theorem not_finished_isAppliedLambda (he : IsAppliedLambda xs body e) :
    (eval hosts 1 f e s).1 = .unfinished := by
  obtain ⟨operator, parameters, he, -⟩ := he
  rw [eval_succ, turn_of_isCombination he]
  rfl

/-- Making the procedure takes one turn; then the operands are evaluated. -/
theorem turn_of_isAppliedLambda (hosts : Host.Table) (fuel f : Nat) (s : Store)
    (he : IsAppliedLambda xs body e) (hbody : body ≠ []) :
    ∃ operator, turn hosts (eval hosts (fuel + 1)) f e s =
      .after (evalEach (eval hosts (fuel + 1) f) (xs.map Prod.snd)
        { s with procedures := s.procedures.push ⟨xs.map fun p => .symbol p.1, body, f⟩ })
        fun args s₁ => applyTurn hosts (eval hosts (fuel + 1)) operator
          (.procedure s.procedures.size) args s₁ := by
  obtain ⟨operator, parameters, he, ho, hlist, hparameters⟩ := he
  obtain ⟨b, body, rfl⟩ := List.exists_cons_of_ne_nil hbody
  have hmade : eval hosts (fuel + 1) f operator s = (.value (.procedure s.procedures.size),
      { s with procedures := s.procedures.push ⟨xs.map fun p => .symbol p.1, b :: body, f⟩ }) := by
    rw [eval_succ, turn_of_isForm ho (readSpecial_lambda hlist), hparameters]
    rfl
  refine ⟨operator, ?_⟩
  rw [turn_of_isCombination he, formTurn, hmade]
  rfl

end Scopes

/-- **A scope is a procedure applied at once.** Where no host function sees the numbers of
    procedures and all that is referred to exists, `(let ((x q) ...) b ...)` and
    `((lambda (x ...) b ...) q ...)` with the same fuel come in every frame to the same value or the
    same failure, or are both unfinished; and the stores they leave are the same, the displayed text
    included, but for the procedure that the second one makes first and that nothing refers to.
    Procedures that were there keep their numbers, and those made by the two are numbered one
    apart. -/
theorem eval_scope_lambda {hosts : Host.Table} (hhosts : ∀ h ∈ hosts, h.Uniform) (fuel f : Nat)
    {s : Store} (hs : s.Closed) {xs : List (String × Value)} {body : List Value} {e e' : Value}
    (hx : ∀ p ∈ xs, Keyword.ofName? p.1 = none) (hbody : body ≠ []) (he : IsScope xs body e)
    (he' : IsAppliedLambda xs body e') (hknown : e.Refers (· < s.procedures.size)) :
    (eval hosts fuel f e' s).1
        = (eval hosts fuel f e s).1.map (.rename (shift s.procedures.size)) ∧
      (Finished (eval hosts fuel f e s) →
        Inserts s.procedures.size ⟨xs.map fun p => .symbol p.1, body, f⟩
          (eval hosts fuel f e s).2 (eval hosts fuel f e' s).2 ∧
        (eval hosts fuel f e' s).2.Refers (· ≠ s.procedures.size)) := by
  match fuel with
  | 0 => exact ⟨rfl, fun h => absurd rfl h⟩
  | 1 =>
    have hscope := not_finished_isScope hosts f s he hx hbody
    rw [not_finished_isAppliedLambda he', hscope]
    exact ⟨rfl, fun h => absurd hscope h⟩
  | fuel + 2 =>
    obtain ⟨operator, hcall⟩ := turn_of_isAppliedLambda hosts fuel f s he' hbody
    obtain ⟨hes, hknown⟩ := he.refers hknown
    obtain ⟨bindings, he, hlist, hbs⟩ := he
    obtain ⟨b, body, rfl⟩ := List.exists_cons_of_ne_nil hbody
    have hinserts := Inserts.of_push hs ⟨xs.map fun p => .symbol p.1, b :: body, f⟩
    have hev := (inserting_kept hhosts s.procedures.size
      ⟨xs.map fun p => .symbol p.1, b :: body, f⟩).eval (fuel + 1)
    have htakes := takes_isScope hev rfl hbs hx hes hknown hinserts operator
    rw [← hcall, ← turn_of_isForm he (readSpecial_scope hlist)] at htakes
    have hagrees := htakes.finish hev
    rw [← eval_succ, ← eval_succ] at hagrees
    exact ⟨hagrees.outcome, fun _ => ⟨hagrees.goes.store, hagrees.goes.store.refers⟩⟩

/-- A scope that binds a name twice, makes a procedure for the first binding and another one that
    it returns, and sets a name outside to an old one. -/
theorem eval_scope_lambda_twice :
    let s : Store := ⟨#[⟨none, [("y", .boolean false), ("p", .procedure 0)]⟩],
      #[⟨[], [.symbol "y"], 0⟩], .initial⟩
    let made (x : String) : Value := .pair 0 (.symbol "lambda") (.pair 1 .emptyList
      (.pair 2 (.symbol x) .emptyList))
    let binding (q : Value) : Value := .pair 3 (.symbol "x") (.pair 4 q .emptyList)
    let assignment : Value := .pair 5 (.symbol "set!") (.pair 6 (.symbol "y") (.pair 7
      (.symbol "x") .emptyList))
    let body : Value := .pair 8 assignment (.pair 9 (made "x") .emptyList)
    let e : Value := .pair 10 (.symbol "let") (.pair 11 (.pair 12 (binding (made "y"))
      (.pair 13 (binding (.symbol "p")) .emptyList)) body)
    let e' : Value := .pair 14 (.pair 15 (.symbol "lambda") (.pair 16 (.pair 17 (.symbol "x")
      (.pair 18 (.symbol "x") .emptyList)) body)) (.pair 19 (made "y") (.pair 20 (.symbol "p")
      .emptyList))
    let r := eval Host.standard.toArray 4 0 e s
    let r' := eval Host.standard.toArray 4 0 e' s
    r.1 = .value (.procedure 2) ∧ r'.1 = .value (.procedure 3) ∧
      Inserts 1 ⟨[.symbol "x", .symbol "x"], [assignment, made "x"], 0⟩ r.2 r'.2 ∧
      r'.2.Refers (· ≠ 1) ∧ r'.2.get? 0 "y" = some (.procedure 0) := by
  intro s made binding assignment body e e' r r'
  have hhosts : ∀ h ∈ Host.standard.toArray, h.Uniform := fun h hh =>
    Host.uniform_of_mem_standard (List.mem_toArray.1 hh)
  have hbound : ∀ b ∈ s.bindingsOf 0, b.2.Refers (· < s.procedures.size) := by decide
  have hs : s.Closed := by
    refine ⟨fun f => ?_, fun id p _ hp => ?_⟩
    · cases f with
      | zero => exact hbound
      | succ f => exact List.forall_mem_nil _
    · cases id with
      | zero => cases hp; decide
      | succ id => cases hp
  have hx : ∀ p ∈ [("x", made "y"), ("x", .symbol "p")], Keyword.ofName? p.1 = none := by decide
  have he : IsScope [("x", made "y"), ("x", .symbol "p")] [assignment, made "x"] e :=
    ⟨_, ⟨10, _, rfl, rfl⟩, rfl, rfl⟩
  have he' : IsAppliedLambda [("x", made "y"), ("x", .symbol "p")] [assignment, made "x"] e' :=
    ⟨_, _, ⟨14, _, rfl, rfl, rfl⟩, ⟨15, _, rfl, rfl⟩, rfl, rfl⟩
  have hbody : [assignment, made "x"] ≠ [] := List.cons_ne_nil _ _
  have hknown : e.Refers (· < s.procedures.size) := by decide
  have hvalue : r.1 = .value (.procedure 2) := by decide
  obtain ⟨houtcome, hstores⟩ := eval_scope_lambda hhosts 4 0 hs hx hbody he he' hknown
  have hfinished : r.1 ≠ .unfinished := by decide
  refine ⟨hvalue, ?_, (hstores hfinished).1, (hstores hfinished).2, by decide⟩
  rw [houtcome, hvalue]
  rfl

end Eval

end HostedLisp
