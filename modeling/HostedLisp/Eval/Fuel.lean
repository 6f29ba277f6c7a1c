import HostedLisp.Eval

/-!
# More fuel keeps a finished outcome

A turn of the loop does with its evaluator only what leads to its own outcome. So if the turn is
finished, an evaluator that agrees with the given one wherever that is finished makes the turn the
same (`turn_congr`); and with that an evaluation that is finished stays as it is with more fuel
(`eval_of_le`).
-/

namespace HostedLisp.Eval

/-! ## 1. Results -/

/-- The result is a value or a failure. -/
def Finished {α : Type} (r : Result α) : Prop := r.1 ≠ .unfinished

/-- `ev'` does what `ev` does wherever `ev` is finished. -/
def Extends (ev' ev : Value → Store → Result Value) : Prop :=
  ∀ e s, Finished (ev e s) → ev' e s = ev e s

theorem not_finished_unfinished {α : Type} (s : Store) :
    ¬Finished ((.unfinished, s) : Result α) :=
  fun h => h rfl

theorem andThen_congr {α β : Type} {r r' : Result α} {next next' : α → Store → Result β}
    (hr : Finished r → r' = r) (hn : ∀ a s, Finished (next a s) → next' a s = next a s)
    (h : Finished (andThen r next)) : andThen r' next' = andThen r next := by
  obtain ⟨outcome, s⟩ := r
  cases outcome with
  | value a =>
    rw [hr (by simp [Finished])]
    exact hn a s h
  | failure e =>
    rw [hr (by simp [Finished])]
    rfl
  | unfinished => exact absurd h (not_finished_unfinished s)

/-! ## 2. Several expressions -/

section Several

variable {ev ev' : Value → Store → Result Value}

theorem evalEach_congr (hev : Extends ev' ev) (es : List Value) (s : Store)
    (h : Finished (evalEach ev es s)) : evalEach ev' es s = evalEach ev es s := by
  induction es generalizing s with
  | nil => rfl
  | cons e es ih =>
    exact andThen_congr (hev e s) (fun _ s => andThen_congr (ih s) fun _ _ _ => rfl) h

theorem evalSequence_congr (hev : Extends ev' ev) (es : List Value) (s : Store)
    (h : Finished (evalSequence ev es s)) : evalSequence ev' es s = evalSequence ev es s := by
  induction es generalizing s with
  | nil => rfl
  | cons e es ih =>
    cases es with
    | nil => rfl
    | cons => exact andThen_congr (hev e s) (fun _ s => ih s) h

theorem evalLocals_congr (hev : Extends ev' ev) (bs : List Value) (s : Store)
    (h : Finished (evalLocals ev bs s)) : evalLocals ev' bs s = evalLocals ev bs s := by
  induction bs generalizing s with
  | nil => rfl
  | cons b bs ih =>
    exact andThen_congr (fun _ => rfl)
      (fun p s => andThen_congr (hev p.2 s) fun _ s => andThen_congr (ih s) fun _ _ _ => rfl) h

end Several

/-! ## 3. Turns -/

namespace Turn

/-- The turn goes on, or is over with a value or a failure. -/
def Finished : Turn → Prop
  | .ended r => Eval.Finished r
  | .onward .. => True

theorem after_congr {α : Type} {r r' : Result α} {next next' : α → Store → Turn}
    (hr : Eval.Finished r → r' = r) (hn : ∀ a s, (next a s).Finished → next' a s = next a s)
    (h : (after r next).Finished) : after r' next' = after r next := by
  obtain ⟨outcome, s⟩ := r
  cases outcome with
  | value a =>
    rw [hr (by simp [Eval.Finished])]
    exact hn a s h
  | failure e =>
    rw [hr (by simp [Eval.Finished])]
    rfl
  | unfinished => exact absurd h (not_finished_unfinished s)

end Turn

section Turns

variable {hosts : Host.Table} {ev ev' : Evaluator}

theorem bodyTurn_congr (hev : ∀ f, Extends (ev' f) (ev f)) (f : Nat) (body : List Value)
    (s : Store) (h : (bodyTurn ev f body s).Finished) :
    bodyTurn ev' f body s = bodyTurn ev f body s :=
  Turn.after_congr (evalSequence_congr (hev f) body s) (fun _ _ _ => rfl) h

theorem applyTurn_congr (hev : ∀ f, Extends (ev' f) (ev f)) (operator callee : Value)
    (args : List Value) (s : Store) (h : (applyTurn hosts ev operator callee args s).Finished) :
    applyTurn hosts ev' operator callee args s = applyTurn hosts ev operator callee args s := by
  cases callee with
  | procedure id =>
    simp only [applyTurn] at h ⊢
    cases hp : s.procedures[id]? with
    | none => rfl
    | some p =>
      simp only [hp, procedureTurn] at h ⊢
      cases hb : s.bind p args with
      | error e => rfl
      | ok call =>
        simp only [hb] at h ⊢
        exact bodyTurn_congr hev _ _ _ h
  | _ => rfl

theorem formTurn_congr (hev : ∀ f, Extends (ev' f) (ev f)) (f : Nat) (form : Form) (s : Store)
    (h : (formTurn hosts ev f form s).Finished) :
    formTurn hosts ev' f form s = formTurn hosts ev f form s := by
  cases form with
  | constant v => rfl
  | define x e => exact congrArg Turn.ended (andThen_congr (hev f e s) (fun _ _ _ => rfl) h)
  | assign x e =>
    simp only [formTurn] at h ⊢
    split
    · rename_i hx
      rw [if_pos hx] at h
      exact congrArg Turn.ended (andThen_congr (hev f e s) (fun _ _ _ => rfl) h)
    · rfl
  | lambda parameters body => rfl
  | branch test consequent alternative =>
    exact Turn.after_congr (hev f test s) (fun _ _ _ => rfl) h
  | sequence body =>
    simp only [formTurn] at h ⊢
    split
    · rfl
    · rename_i hb
      rw [if_neg hb] at h
      exact bodyTurn_congr hev f body s h
  | scope bindings body =>
    exact Turn.after_congr (evalLocals_congr (hev f) bindings s)
      (fun _ _ => bodyTurn_congr hev _ _ _) h
  | application operator operands =>
    exact Turn.after_congr (hev f operator s)
      (fun callee s => Turn.after_congr (evalEach_congr (hev f) operands s)
        fun args s => applyTurn_congr hev operator callee args s) h

/-- **A finished turn is the same with an evaluator that extends the given one.** -/
theorem turn_congr (hev : ∀ f, Extends (ev' f) (ev f)) (f : Nat) (e : Value) (s : Store)
    (h : (turn hosts ev f e s).Finished) : turn hosts ev' f e s = turn hosts ev f e s := by
  cases e with
  | pair cell operator rest =>
    simp only [turn] at h ⊢
    cases hf : Form.read operator rest.items with
    | error err => rfl
    | ok form =>
      simp only [hf] at h ⊢
      exact formTurn_congr hev f form s h
  | _ => rfl

end Turns

/-! ## 4. Fuel -/

/-- With one more unit of fuel the loop takes one turn and goes on with what was left. -/
theorem eval_succ (hosts : Host.Table) (fuel f : Nat) (e : Value) (s : Store) :
    eval hosts (fuel + 1) f e s
      = (turn hosts (eval hosts fuel) f e s).finish (eval hosts fuel) := by
  rw [eval]
  cases turn hosts (eval hosts fuel) f e s <;> rfl

theorem eval_succ_extends (hosts : Host.Table) (fuel f : Nat) :
    Extends (eval hosts (fuel + 1) f) (eval hosts fuel f) := by
  induction fuel generalizing f with
  | zero => exact fun _ s h => absurd h (not_finished_unfinished s)
  | succ fuel ih =>
    intro e s h
    rw [eval_succ hosts fuel] at h ⊢
    rw [eval_succ hosts (fuel + 1)]
    cases ht : turn hosts (eval hosts fuel) f e s with
    | ended r =>
      rw [ht] at h
      rw [turn_congr ih f e s (by rw [ht]; exact h), ht]
      rfl
    | onward g e' s' =>
      rw [ht] at h
      rw [turn_congr ih f e s (by rw [ht]; trivial), ht]
      exact ih g e' s' h

/-- **A finished evaluation stays as it is with more fuel.** -/
theorem eval_of_le {hosts : Host.Table} {fuel fuel' f : Nat} {e : Value} {s : Store}
    (hle : fuel ≤ fuel') (h : Finished (eval hosts fuel f e s)) :
    eval hosts fuel' f e s = eval hosts fuel f e s := by
  induction hle with
  | refl => rfl
  | step _ ih =>
    rw [← ih] at h ⊢
    exact eval_succ_extends hosts _ f e s h

end HostedLisp.Eval
