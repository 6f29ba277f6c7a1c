import HostedLisp.Proofs.Evaluation.Invariants
import HostedLisp.Proofs.Scopes.Chains

/-!
# What evaluation does to the store

There are four things that evaluation does to a store (`Store.Step`): it changes the effects, it
sets a name, it makes a procedure, and it makes a frame inside a frame that exists. Whatever is
evaluated, and however it ends, the store is left by a run of such steps (`run_eval`). So what one
step preserves, every evaluation preserves, and nothing has to be said about the evaluator again.

* `Store.Step`, `Store.Run` -- one step, and steps one after the other;
* `Eval.reached` -- being reached by a run of steps, as an invariant of evaluation;
* `run_eval` -- **every evaluation is a run of steps**.
-/

namespace HostedLisp

namespace Store

/-! ## 1. Steps -/

/-- One thing that evaluation does to a store. -/
inductive Step (s : Store) : Store → Prop where
  | effects (w : Effects) : Step s (s.withEffects w)
  | set (f : Nat) (x : String) (v : Value) : Step s (s.set f x v)
  | procedure (parameters body : List Value) (f : Nat) (hf : f < s.frames.size) :
      Step s { s with procedures := s.procedures.push ⟨parameters, body, f⟩ }
  | frame (parent : Nat) (bindings : Bindings) (hp : parent < s.frames.size) :
      Step s (s.newFrame (some parent) bindings).2

/-- Steps one after the other. -/
inductive Run (s : Store) : Store → Prop where
  | start : Run s s
  | step {s₁ s₂ : Store} (h : Run s s₁) (hs : Step s₁ s₂) : Run s s₂

/-- A name is set by changing the bindings of one frame, or nothing is changed. -/
theorem set_cases (s : Store) (f : Nat) (x : String) (v : Value) :
    s.set f x v = s ∨ ∃ g, s.target? f x = some g ∧ s.set f x v = s.define g x v := by
  unfold Store.set
  cases s.target? f x with
  | none => exact .inl rfl
  | some g => exact .inr ⟨g, rfl, rfl⟩

theorem procedures_set (s : Store) (f : Nat) (x : String) (v : Value) :
    (s.set f x v).procedures = s.procedures := by
  rcases set_cases s f x v with he | ⟨g, -, he⟩
  · rw [he]
  · rw [he]
    rfl

section Members

variable {s : Store} {f g : Nat} {x : String} {v : Value} {b : String × Value}

theorem mem_bindingsOf_define (h : b ∈ (s.define f x v).bindingsOf g) :
    b = (x, v) ∨ b ∈ s.bindingsOf g := by
  rw [define, bindingsOf, frames_modifyBindings] at h
  split at h
  · cases hg : s.frames[g]? with
    | none =>
      rw [hg] at h
      cases h
    | some frame =>
      rw [hg] at h
      rw [bindingsOf, hg]
      exact Bindings.mem_set h
  · exact .inr h

theorem mem_bindingsOf_set (h : b ∈ (s.set f x v).bindingsOf g) :
    b = (x, v) ∨ b ∈ s.bindingsOf g := by
  rcases set_cases s f x v with he | ⟨k, -, he⟩
  · rw [he] at h
    exact .inr h
  · rw [he] at h
    exact mem_bindingsOf_define h

end Members

section Steps

variable {s s₁ : Store}

/-- No step removes a frame. -/
theorem Step.size_le (h : Step s s₁) : s.frames.size ≤ s₁.frames.size := by
  cases h with
  | effects w => exact Nat.le_refl _
  | set f x v =>
    rcases set_cases s f x v with he | ⟨g, -, he⟩
    · exact Nat.le_of_eq (by rw [he])
    · exact Nat.le_of_eq (by rw [he, define, size_modifyBindings])
  | procedure parameters body f hf => exact Nat.le_refl _
  | frame parent bindings hp =>
    rw [size_newFrame]
    exact Nat.le_succ _

/-- After a step, procedures are still made in frames that exist. -/
theorem Step.bounded (h : Step s s₁) (hb : s.Bounded) : s₁.Bounded := by
  have hle := h.size_le
  intro id p hp
  cases h with
  | effects w => exact hb id p hp
  | set f x v =>
    rw [procedures_set] at hp
    exact Nat.lt_of_lt_of_le (hb id p hp) hle
  | procedure parameters body f hf =>
    rw [Array.getElem?_push] at hp
    split at hp
    · cases hp
      exact hf
    · exact hb id p hp
  | frame parent bindings hp' => exact Nat.lt_of_lt_of_le (hb id p hp) hle

end Steps

/-- What an evaluation needs: its frame and those of the procedures exist. -/
structure Ready (s : Store) (f : Nat) : Prop where
  bounded : s.Bounded
  lt : f < s.frames.size

end Store

namespace Eval

open Store (Step Run Ready)

/-! ## 2. Evaluations -/

/-- Stores that a run of steps leads to from `s₀`, and frames that exist. -/
def reached (s₀ : Store) : Invariant where
  store s := Run s₀ s ∧ s.Bounded
  frame s f := f < s.frames.size
  code _ _ := True
  value _ _ := True

theorem reached_later {s₀ s s₁ : Store} (h : (reached s₀).store s) (hs : Step s s₁) :
    (reached s₀).Later s s₁ where
  store := ⟨.step h.1 hs, hs.bounded h.2⟩
  frame _ hf := Nat.lt_of_lt_of_le hf hs.size_le
  code _ _ := trivial
  value _ _ := trivial

/-- All that evaluation does to a store is a step. -/
theorem reached_kept (hosts : Host.Table) (s₀ : Store) : (reached s₀).Kept hosts where
  parts _ := ⟨trivial, trivial⟩
  data _ := trivial
  built _ _ := trivial
  host _ _ _ := trivial
  effects w h := reached_later h (.effects w)
  lookup _ _ _ := trivial
  set x h _ _ := reached_later h (.set _ x _)
  lambda h hf _ _ := ⟨reached_later h (.procedure _ _ _ hf), trivial⟩
  enter {s f bindings} h hf _ :=
    ⟨reached_later h (.frame _ _ hf),
      Nat.lt_of_lt_of_eq (Nat.lt_succ_self _) (s.size_newFrame (some f) bindings).symm⟩
  procedure h _ hp := ⟨h.2 _ _ hp, fun _ _ => trivial⟩

/-- **Every evaluation is a run of steps.** -/
theorem run_eval (hosts : Host.Table) (fuel f : Nat) (e : Value) (s : Store) (hs : s.Ready f) :
    Run s (eval hosts fuel f e s).2 :=
  ((reached_kept hosts s).eval fuel f e s ⟨.start, hs.bounded⟩ hs.lt trivial).later.store.1

end Eval

end HostedLisp
