import HostedLisp.Proofs.Evaluation.Adequacy
import HostedLisp.Proofs.Evaluation.Simulation
import HostedLisp.Proofs.Scopes.Shape

/-!
# An empty scope is transparent

A scope without bindings makes a frame all the same, and every procedure that its body makes keeps
that frame on its chain for good. The frame stays empty: a name is set where it is bound already, or
in the outermost frame, and the empty frame is neither. So a walk outward may pass it by, and the
store with the frame and the one without it answer all questions alike.

* `skip` -- the numbers that frames have without the empty one, which its parent stands for;
* `Skips` -- a store, and the same store without an empty frame;
* `Skips.get?`, `Skips.set` -- **what is seen and what is set past the empty frame**, by induction
  on the way outward;
* `skipping_kept` -- leaving the frame out is kept by all that evaluation does;
* `eval_scope_empty` -- **a scope without bindings does what the sequence of its body does**.
-/

namespace HostedLisp

namespace Store

/-! ## 1. Leaving a frame out -/

/-- The number of the frame `g` where the frame `n` inside `f` is left out: `f` stands for it, and
    the frames after it move up. -/
def skip (n f g : Nat) : Nat := if g < n then g else if g = n then f else g - 1

section Skip

variable {n f g h : Nat}

theorem skip_of_lt (hg : g < n) : skip n f g = g := if_pos hg

@[simp] theorem skip_self : skip n f n = f := by simp [skip]

theorem skip_of_gt (hg : n < g) : skip n f g = g - 1 := by
  rw [skip, if_neg (Nat.not_lt.2 (Nat.le_of_lt hg)), if_neg (Nat.ne_of_gt hg)]

/-- Only the frame that is left out shares its number with another one. -/
theorem skip_inj (hg : g ≠ n) (hh : h ≠ n) : skip n f g = skip n f h ↔ g = h := by
  unfold skip
  grind

end Skip

/-- The store `s'` is `s` without its frame `n`, an empty one inside `f`. -/
structure Skips (n f : Nat) (s s' : Store) : Prop where
  lt : f < n
  le : n ≤ s'.frames.size
  size : s.frames.size = s'.frames.size + 1
  inside : s.parent? n = some f
  empty : s.bindingsOf n = []
  parent : ∀ g, g ≠ n → s'.parent? (skip n f g) = (s.parent? g).map (skip n f)
  bindings : ∀ g, g ≠ n → s'.bindingsOf (skip n f g) = s.bindingsOf g
  procedures : s'.procedures = s.procedures.map (.rename id (skip n f))
  effects : s'.effects = s.effects

namespace Skips

variable {n f g : Nat} {s s' : Store}

/-- A new frame without bindings can be left out. -/
theorem of_newFrame (hs : s.Linked) (hf : f < s.frames.size) :
    Skips s.frames.size f (s.newFrame (some f) []).2 s where
  lt := hf
  le := Nat.le_refl _
  size := size_newFrame s (some f) []
  inside := by rw [parent?_newFrame, if_pos rfl]
  empty := by rw [bindingsOf_newFrame, if_pos rfl]
  parent g hg := by
    rw [parent?_newFrame, if_neg hg]
    cases hp : s.parent? g with
    | none =>
      -- what has no parent is an outermost frame, or no frame at all
      rw [Option.map_none]
      by_cases hlt : g < s.frames.size
      · rw [skip_of_lt hlt, hp]
      · rw [skip_of_gt (by omega), parent?, Array.getElem?_eq_none (by omega)]
        rfl
    | some p =>
      rw [skip_of_lt (lt_of_parent? hp), hp, Option.map_some, skip_of_lt (hs.parent_lt g p hp)]
  bindings g hg := by
    rw [bindingsOf_newFrame, if_neg hg]
    by_cases hlt : g < s.frames.size
    · rw [skip_of_lt hlt]
    · rw [skip_of_gt (by omega), bindingsOf, bindingsOf, Array.getElem?_eq_none (by omega),
        Array.getElem?_eq_none (by omega)]
  procedures := by
    refine Array.ext (by simp [newFrame]) fun id h _ => ?_
    have hp := hs.bounded id _ (Array.getElem?_eq_getElem h)
    simp [newFrame, Procedure.rename, skip_of_lt hp]
  effects := rfl

theorem skip_lt (h : Skips n f s s') (hg : g < s.frames.size) :
    skip n f g < s'.frames.size := by
  have := h.lt
  have := h.le
  have := h.size
  unfold skip
  grind

/-- The number of the next frame. -/
theorem skip_size (h : Skips n f s s') : skip n f s.frames.size = s'.frames.size := by
  have hgt : n < s'.frames.size + 1 := Nat.lt_succ_of_le h.le
  rw [h.size, skip_of_gt hgt, Nat.add_sub_cancel]

theorem size_procedures (h : Skips n f s s') : s.procedures.size = s'.procedures.size := by
  rw [h.procedures, Array.size_map]

theorem procedure (h : Skips n f s s') (i : Nat) :
    s'.procedures[i]? = s.procedures[i]?.map (.rename id (skip n f)) := by
  rw [h.procedures, Array.getElem?_map]

/-! ## 2. Reading and writing past it -/

/-- **Every frame sees the same**: the empty one sees what its parent sees. -/
theorem get? (h : Skips n f s s') (hs : s.Linked) (hs' : s'.Linked) (hg : g < s.frames.size)
    (x : String) : s'.get? (skip n f g) x = s.get? g x := by
  induction g using (wellFounded_isParent hs.acyclic).induction with
  | _ g ih =>
    by_cases hn : g = n
    · subst hn
      have hf := hs.parent_lt g f h.inside
      have houter := ih f h.inside hf
      rw [skip_of_lt h.lt] at houter
      rw [skip_self, houter, hs.walks.get g hg, h.empty, h.inside]
      rfl
    · rw [hs'.walks.get _ (h.skip_lt hg), hs.walks.get g hg, h.bindings g hn, h.parent g hn]
      cases hp : s.parent? g with
      | none => rfl
      | some p => simp only [Option.map_some, Option.bind_some, ih p hp (hs.parent_lt g p hp)]

theorem define (h : Skips n f s s') (hg : g < s.frames.size) (hn : g ≠ n) (x : String)
    (v : Value) : Skips n f (s.define g x v) (s'.define (skip n f g) x v) where
  lt := h.lt
  le := by rw [Store.define, size_modifyBindings]; exact h.le
  size := by rw [Store.define, Store.define, size_modifyBindings, size_modifyBindings, h.size]
  inside := by rw [Store.define, parent?_modifyBindings, h.inside]
  empty := by rw [Store.define, bindingsOf_modifyBindings s n _ hg, if_neg hn, h.empty]
  parent k hk := by
    rw [Store.define, Store.define, parent?_modifyBindings, parent?_modifyBindings, h.parent k hk]
  bindings k hk := by
    rw [Store.define, Store.define, bindingsOf_modifyBindings s' _ _ (h.skip_lt hg),
      bindingsOf_modifyBindings s k _ hg, h.bindings k hk]
    simp only [skip_inj hn hk]
  procedures := h.procedures
  effects := h.effects

/-- **A name is set in the same frame**, which is never the empty one: that binds nothing and has
    a parent. -/
theorem set (h : Skips n f s s') (hs : s.Linked) (hs' : s'.Linked) (hg : g < s.frames.size)
    (x : String) (v : Value) : Skips n f (s.set g x v) (s'.set (skip n f g) x v) := by
  induction g using (wellFounded_isParent hs.acyclic).induction with
  | _ g ih =>
    by_cases hn : g = n
    · subst hn
      have houter := ih f h.inside (hs.parent_lt g f h.inside)
      rw [skip_of_lt h.lt] at houter
      rw [skip_self, hs.walks.set g hg, h.empty, h.inside]
      exact houter
    · rw [hs'.walks.set _ (h.skip_lt hg), hs.walks.set g hg, h.bindings g hn, h.parent g hn]
      cases hp : s.parent? g with
      | none => exact h.define hg hn x v
      | some p =>
        simp only [Option.map_some]
        split
        · exact h.define hg hn x v
        · exact ih p hp (hs.parent_lt g p hp)

theorem withEffects (h : Skips n f s s') (w : Effects) :
    Skips n f (s.withEffects w) (s'.withEffects w) where
  lt := h.lt
  le := h.le
  size := h.size
  inside := h.inside
  empty := h.empty
  parent := h.parent
  bindings := h.bindings
  procedures := h.procedures
  effects := rfl

theorem push (h : Skips n f s s') (p : Procedure) :
    Skips n f { s with procedures := s.procedures.push p }
      { s' with procedures := s'.procedures.push (p.rename id (skip n f)) } where
  lt := h.lt
  le := h.le
  size := h.size
  inside := h.inside
  empty := h.empty
  parent := h.parent
  bindings := h.bindings
  procedures := by rw [h.procedures, Array.map_push]
  effects := h.effects

theorem newFrame (h : Skips n f s s') (parent : Nat) (b : Bindings) :
    Skips n f (s.newFrame (some parent) b).2 (s'.newFrame (some (skip n f parent)) b).2 := by
  have hsize := h.size
  have hle := h.le
  have hnew : ∀ k, k ≠ n → (skip n f k = s'.frames.size ↔ k = s.frames.size) := by
    intro k hk
    rw [← h.skip_size]
    exact skip_inj hk (by omega)
  have hn : n ≠ s.frames.size := by omega
  exact
    { lt := h.lt
      le := by rw [size_newFrame]; omega
      size := by rw [size_newFrame, size_newFrame, h.size]
      inside := by rw [parent?_newFrame, if_neg hn, h.inside]
      empty := by rw [bindingsOf_newFrame, if_neg hn, h.empty]
      parent := fun k hk => by
        simp only [parent?_newFrame, hnew k hk, h.parent k hk]
        split <;> rfl
      bindings := fun k hk => by
        simp only [bindingsOf_newFrame, hnew k hk, h.bindings k hk]
      procedures := h.procedures
      effects := h.effects }

end Skips

theorem lt_size_newFrame (s : Store) (parent : Option Nat) (bindings : Bindings) :
    s.frames.size < (s.newFrame parent bindings).2.frames.size := by
  rw [size_newFrame]
  exact Nat.lt_succ_self _

theorem Step.linked {s s₁ : Store} (h : Step s s₁) (hs : s.Linked) : s₁.Linked :=
  (Run.start.step h).keeps hs |>.2

end Store

namespace Eval

open Store (skip Skips Step)

/-! ## 3. Evaluation -/

/-- One evaluation has an empty frame `n` inside `f` that the other one does without. Procedures
    have the same numbers in both. -/
def skipping (n f : Nat) : Simulation where
  procedure := id
  frame := skip n f
  store s s' := Skips n f s s' ∧ s.Linked ∧ s'.Linked
  live s g := g < s.frames.size
  code _ := True

section Skipping

variable {n f : Nat} {s s' s₁ s₁' : Store}

theorem rename_skipping :
    (Expression.rename (skipping n f).procedure : Value → Value) = id :=
  Expression.rename_id_eq

theorem skipping_goes (hs : (skipping n f).store s s') (h : Skips n f s₁ s₁') (hstep : Step s s₁)
    (hstep' : Step s' s₁') : (skipping n f).Goes s s₁ s₁' where
  store := ⟨h, hstep.linked hs.2.1, hstep'.linked hs.2.2⟩
  live _ hg := Nat.lt_of_lt_of_le hg hstep.size_le

theorem skipping_enters {g : Nat} (hs : (skipping n f).store s s') (hg : g < s.frames.size)
    (bindings : Bindings) : (skipping n f).Enters s s' g bindings where
  goes := by
    rw [show bindings.rename (skipping n f).procedure = bindings from bindings.rename_id]
    exact skipping_goes hs (hs.1.newFrame g bindings) (.frame g bindings hg)
      (.frame _ bindings (hs.1.skip_lt hg))
  frame := hs.1.skip_size
  live := s.lt_size_newFrame (some g) bindings

/-- **All that evaluation does keeps the empty frame empty**, and does the same without it. -/
theorem skipping_kept (hosts : Host.Table) (n f : Nat) : (skipping n f).Kept hosts where
  evaluated _ _ _ := trivial
  host h _ := h.respects_id
  effects hs := hs.1.effects
  perform w hs := skipping_goes hs (hs.1.withEffects w) (.effects w) (.effects w)
  lookup {s s' g} hs hg x := by
    rw [rename_skipping, Option.map_id]
    exact hs.1.get? hs.2.1 hs.2.2 hg x
  set {s s' g x} v hs hg _ := by
    rw [rename_skipping]
    exact skipping_goes hs (hs.1.set hs.2.1 hs.2.2 hg x v) (.set g x v) (.set _ x v)
  lambda {s s' g parameters body} hs hg _ _ :=
    ⟨skipping_goes hs (hs.1.push ⟨parameters, body, g⟩) (.procedure parameters body g hg)
      (.procedure _ _ _ (hs.1.skip_lt hg)), hs.1.size_procedures⟩
  procedure hs id := hs.1.procedure id
  captured {s s' id p} hs hp := ⟨hs.2.1.bounded id p hp, fun _ _ => trivial⟩
  scope {s s' g bindings} hs hg _ := skipping_enters hs hg bindings
  call {s s' id p args bindings} hs hp _ := skipping_enters hs (hs.2.1.bounded id p hp) bindings

end Skipping

/-! ## 4. Empty scopes -/

/-- **An empty scope is transparent.** In every frame, `(let () b e ...)` and `(begin b e ...)`
    with the same fuel come to the same value or the same failure, or are both unfinished; and what
    they leave is the same but for one empty frame: the frames that were there bind the same names
    to the same values, and so do the new ones, the procedures are the same, with the parent of the
    empty frame in its place, and so are the effects, the displayed text among them. -/
theorem eval_scope_empty (hosts : Host.Table) (fuel : Nat) {s : Store} {f : Nat} (hs : s.Linked)
    (hf : f < s.frames.size) {b e e' : Value} {body : List Value}
    (he : IsForm .scope (.emptyList :: b :: body) e) (he' : IsForm .sequence (b :: body) e') :
    (eval hosts fuel f e s).1 = (eval hosts fuel f e' s).1 ∧
      (Finished (eval hosts fuel f e s) →
        Skips s.frames.size f (eval hosts fuel f e s).2 (eval hosts fuel f e' s).2 ∧
        ∀ g < s.frames.size,
          (eval hosts fuel f e s).2.bindingsOf g = (eval hosts fuel f e' s).2.bindingsOf g) := by
  cases fuel with
  | zero => exact ⟨rfl, fun h => absurd rfl h⟩
  | succ fuel =>
    have hscope : turn hosts (eval hosts fuel) f e s
        = bodyTurn (eval hosts fuel) s.frames.size (b :: body) (s.newFrame (some f) []).2 :=
      turn_of_isForm he (readSpecial_scope rfl)
    have hsequence : turn hosts (eval hosts fuel) f e' s
        = bodyTurn (eval hosts fuel) f (b :: body) s :=
      turn_of_isForm he' rfl
    have hstart : (skipping s.frames.size f).store (s.newFrame (some f) []).2 s :=
      ⟨.of_newFrame hs hf, (Step.frame f [] hf).linked hs, hs⟩
    have hlive : (skipping s.frames.size f).live (s.newFrame (some f) []).2 s.frames.size :=
      s.lt_size_newFrame (some f) []
    have hkept := skipping_kept hosts s.frames.size f
    have hcode : ∀ q ∈ b :: body, (skipping s.frames.size f).code q := fun _ _ => trivial
    have hbody := (Simulation.Kept.bodyTurn (hkept.eval fuel) hstart hlive hcode).finish
      (hkept.eval fuel)
    have hframe : (skipping s.frames.size f).frame s.frames.size = f := Store.skip_self
    rw [hframe, rename_skipping, List.map_id, ← hscope, ← hsequence, ← eval_succ,
      ← eval_succ] at hbody
    have houtcome : (eval hosts (fuel + 1) f e' s).1 = (eval hosts (fuel + 1) f e s).1 := by
      rw [hbody.outcome, Outcome.map_id]
    have hskips := hbody.goes.store.1
    refine ⟨houtcome.symm, fun _ => ⟨hskips, fun g hg => ?_⟩⟩
    rw [← hskips.bindings g (Nat.ne_of_lt hg), Store.skip_of_lt hg]

/-- A definition in an empty scope inside another scope, and a procedure made there. The name
    becomes a global one, and the procedure is the same but for the frame it was made in. -/
theorem eval_scope_empty_closure :
    let s : Store := ⟨#[⟨none, []⟩, ⟨some 0, [("y", .boolean true)]⟩], #[], .initial⟩
    let definition : Value := .pair 0 (.symbol "define") (.pair 1 (.symbol "z") (.pair 2
      (.symbol "y") .emptyList))
    let lambda : Value := .pair 3 (.symbol "lambda") (.pair 4 .emptyList (.pair 5 (.symbol "z")
      .emptyList))
    let body : Value := .pair 6 definition (.pair 7 lambda .emptyList)
    let e : Value := .pair 8 (.symbol "let") (.pair 9 .emptyList body)
    let e' : Value := .pair 10 (.symbol "begin") body
    let r := eval #[] 3 1 e s
    let r' := eval #[] 3 1 e' s
    r.1 = r'.1 ∧ Skips 2 1 r.2 r'.2 ∧ r.2.bindingsOf 0 = r'.2.bindingsOf 0 ∧
      r'.2.bindingsOf 0 = [("z", .boolean true)] ∧ r'.1 = .value (.procedure 0) := by
  intro s definition lambda body e e' r r'
  have hparent : ∀ f p, s.parent? f = some p → f = 1 ∧ p = 0 := by
    intro f p h
    match f with
    | 0 => cases h
    | 1 => cases h; exact ⟨rfl, rfl⟩
    | f + 2 => cases h
  have hs : s.Linked := by
    refine ⟨nofun, fun f p h => ?_, Store.acyclic_of_rank id fun f p h => ?_⟩
    · obtain ⟨rfl, rfl⟩ := hparent f p h
      decide
    · obtain ⟨rfl, rfl⟩ := hparent f p h
      decide
  have hf : 1 < s.frames.size := by decide
  have he : IsForm .scope [.emptyList, definition, lambda] e := ⟨8, _, rfl, rfl⟩
  have he' : IsForm .sequence [definition, lambda] e' := ⟨10, _, rfl, rfl⟩
  obtain ⟨houtcome, hstores⟩ := eval_scope_empty #[] 3 hs hf he he'
  have hfinished : r.1 ≠ .unfinished := by decide
  obtain ⟨hskips, hold⟩ := hstores hfinished
  exact ⟨houtcome, hskips, hold 0 (by decide), by decide, by decide⟩

end Eval

end HostedLisp
