import HostedLisp.Proofs.Scopes.Assignment

/-!
# Frames under sharing

A host holds handles to frames. It makes new frames, some of them inside others, it copies handles,
and through any handle it defines and sets names or clears a frame. Whatever it does, parents are
older than their children, so that all walks outward end; and a name that is set through one handle
is seen through all others that lead to the same frame, or into it, unless something nearer hides
it.

* `Handled`, `Grown` -- one thing that a host does, and what comes of doing any number of them;
* `Ordered` -- what stays true: every handle leads to a frame, every parent is older than its child;
* `LeadsOut` -- the frames that following parents leads over;
* `IsWritten` -- where a name is set;
* `SetsAt` -- what setting a name changes, for all frames and names;
* `set_at_nearest` -- **frames are a correct scoped store under sharing**.
-/

namespace HostedLisp.Store

/-! ## 1. What a host does -/

/-- One thing that a host does with the frames that it has handles to. A frame that is made has no
    names yet. -/
inductive Handled (s : Store) (handles : List Nat) : Store → List Nat → Prop where
  | new : Handled s handles (s.newFrame none []).2 (handles ++ [(s.newFrame none []).1])
  | child {e : Nat} (he : e ∈ handles) :
      Handled s handles (s.newFrame (some e) []).2 (handles ++ [(s.newFrame (some e) []).1])
  | copy {e : Nat} (he : e ∈ handles) : Handled s handles s (handles ++ [e])
  | define {e : Nat} (he : e ∈ handles) (x : String) (v : Value) :
      Handled s handles (s.define e x v) handles
  | set {e : Nat} (he : e ∈ handles) (x : String) (v : Value) :
      Handled s handles (s.set e x v) handles
  | clear {e : Nat} (he : e ∈ handles) : Handled s handles (s.clear e) handles

/-- Frames and handles that come of a sequence of such things. -/
inductive Grown : Store → List Nat → Prop where
  | start : Grown .empty []
  | step {s s' : Store} {handles handles' : List Nat} (h : Grown s handles)
      (hs : Handled s handles s' handles') : Grown s' handles'

/-- Every handle leads to a frame, and every parent is older than its child. -/
structure Ordered (s : Store) (handles : List Nat) : Prop where
  handle_lt : ∀ e ∈ handles, e < s.frames.size
  parent_lt : ∀ f p, s.parent? f = some p → p < f
  procedures : s.procedures = #[]

section Growing

variable {s s' : Store} {handles handles' : List Nat} {e : Nat}

/-- Changing bindings changes no frame's place. -/
theorem Ordered.modifyBindings (h : Ordered s handles) (f : Nat) (change : Bindings → Bindings) :
    Ordered (s.modifyBindings f change) handles where
  handle_lt e he := by
    rw [size_modifyBindings]
    exact h.handle_lt e he
  parent_lt g p hp := by
    rw [parent?_modifyBindings] at hp
    exact h.parent_lt g p hp
  procedures := h.procedures

/-- A new frame is younger than all others. -/
theorem Ordered.newFrame (h : Ordered s handles) {parent : Option Nat}
    (hparent : ∀ p ∈ parent, p < s.frames.size) (bindings : Bindings) :
    Ordered (s.newFrame parent bindings).2 (handles ++ [(s.newFrame parent bindings).1]) where
  handle_lt e he := by
    rw [size_newFrame]
    rcases List.mem_append.1 he with he | he
    · exact Nat.lt_succ_of_lt (h.handle_lt e he)
    · rw [List.mem_singleton.1 he]
      exact Nat.lt_succ_self _
  parent_lt g p hp := by
    rw [parent?_newFrame] at hp
    split at hp
    · rename_i hg
      rw [hg]
      exact hparent p hp
    · exact h.parent_lt g p hp
  procedures := h.procedures

/-- **One thing that a host does keeps the order.** -/
theorem Handled.ordered (hs : Handled s handles s' handles') (h : Ordered s handles) :
    Ordered s' handles' := by
  cases hs with
  | new => exact h.newFrame (fun p hp => by cases hp) []
  | child he => exact h.newFrame (fun p hp => Option.some.inj hp ▸ h.handle_lt _ he) []
  | copy he =>
    refine ⟨fun e hm => ?_, h.parent_lt, h.procedures⟩
    rcases List.mem_append.1 hm with hm | hm
    · exact h.handle_lt e hm
    · rw [List.mem_singleton.1 hm]
      exact h.handle_lt _ he
  | define he x v => exact h.modifyBindings _ _
  | set he x v =>
    rcases set_cases s _ x v with hset | ⟨g, -, hset⟩
    · rwa [hset]
    · rw [hset]
      exact h.modifyBindings g _
  | clear he => exact h.modifyBindings _ _

/-- **So does all that a host does.** -/
theorem Grown.ordered (h : Grown s handles) : Ordered s handles := by
  induction h with
  | start => exact ⟨nofun, nofun, rfl⟩
  | step _ hs ih => exact hs.ordered ih

theorem Ordered.linked (h : Ordered s handles) : s.Linked := by
  refine linked_of_parent_lt (fun id p hp => ?_) h.parent_lt
  rw [h.procedures] at hp
  cases hp

/-! ## 2. Chains -/

/-- Following parents from `f` leads over these frames, to one without a parent. -/
inductive LeadsOut (s : Store) : Nat → List Nat → Prop where
  | top {f : Nat} (hf : f < s.frames.size) (hp : s.parent? f = none) : LeadsOut s f [f]
  | inner {f p : Nat} {outer : List Nat} (hp : s.parent? f = some p) (h : LeadsOut s p outer) :
      LeadsOut s f (f :: outer)

/-- A chain is what following parents leads over. -/
theorem Linked.leadsOut (hs : s.Linked) {f : Nat} (hf : f < s.frames.size) :
    s.LeadsOut f (s.chain f) := by
  induction f using (wellFounded_isParent hs.acyclic).induction with
  | _ f ih =>
    cases hp : s.parent? f with
    | none =>
      rw [chain_of_global hf hp]
      exact .top hf hp
    | some p =>
      rw [chain_of_parent hs.acyclic hp]
      exact .inner hp (ih p hp (hs.parent_lt f p hp))

end Growing

/-! ## 3. What is seen after a name was set -/

section Setting

variable {s : Store} {e f g t : Nat} {x y : String} {v : Value}

/-- What is seen is what the nearest frame binds. -/
theorem IsNearest.get? (h : s.IsNearest f y g) : s.get? f y = (s.bindingsOf g).get? y := by
  obtain ⟨inner, outer, hchain, hb, hinner⟩ := h
  have hnone : inner.findSome? (fun k => (s.bindingsOf k).get? y) = none := by
    rw [List.findSome?_eq_none_iff]
    intro k hk
    simpa [Bindings.binds] using hinner k hk
  obtain ⟨u, hu⟩ := Option.isSome_iff_exists.1 hb
  rw [Store.get?, hchain, List.findSome?_append, hnone, List.findSome?_cons, hu]
  rfl

theorem IsUnbound.get? (h : s.IsUnbound f y) : s.get? f y = none := by
  rw [Store.get?, List.findSome?_eq_none_iff]
  intro k hk
  simpa [Bindings.binds] using h k hk

theorem get?_bindingsOf_define (ht : t < s.frames.size) (g : Nat) (x y : String) (v : Value) :
    ((s.define t x v).bindingsOf g).get? y
      = if g = t ∧ y = x then some v else (s.bindingsOf g).get? y := by
  rw [define, bindingsOf_modifyBindings s g _ ht]
  by_cases hg : t = g
  · by_cases hy : x = y
    · simp [hg, hy, Bindings.get?_set]
    · simp [hg, hy, Bindings.get?_set, Ne.symm hy]
  · simp [hg, Ne.symm hg]

theorem binds_define_iff (ht : t < s.frames.size) (g : Nat) (x y : String) (v : Value) :
    ((s.define t x v).bindingsOf g).binds y = true ↔
      (s.bindingsOf g).binds y = true ∨ (g = t ∧ y = x) := by
  rw [Bindings.binds, get?_bindingsOf_define ht]
  split
  · simp_all
  · simp_all [Bindings.binds]

/-- What a definition leaves unbound was unbound. -/
theorem binds_of_define (ht : t < s.frames.size)
    (h : ((s.define t x v).bindingsOf g).binds y = false) : (s.bindingsOf g).binds y = false := by
  rw [Bool.eq_false_iff] at h ⊢
  exact fun hb => h ((binds_define_iff ht g x y v).2 (.inl hb))

theorem IsUnbound.of_define (ht : t < s.frames.size) (h : (s.define t x v).IsUnbound f y) :
    s.IsUnbound f y := by
  intro k hk
  rw [← chain_modifyBindings s t f (Bindings.set x v)] at hk
  exact binds_of_define ht (h k hk)

/-- The frame that is now the nearest was so before, unless it has only now come to bind the
    name. -/
theorem IsNearest.of_define (ht : t < s.frames.size) (h : (s.define t x v).IsNearest f y g)
    (hne : ¬(g = t ∧ y = x)) : s.IsNearest f y g := by
  obtain ⟨inner, outer, hchain, hb, hinner⟩ := h
  rw [define, chain_modifyBindings] at hchain
  refine ⟨inner, outer, hchain, ?_, fun k hk => binds_of_define ht (hinner k hk)⟩
  exact ((binds_define_iff ht g x y v).1 hb).resolve_right hne

/-- **A definition is seen exactly from where its frame is the nearest one.** -/
theorem get?_define_of_isNearest (ht : t < s.frames.size)
    (h : (s.define t x v).IsNearest f x t) : (s.define t x v).get? f x = some v := by
  rw [h.get?, get?_bindingsOf_define ht, if_pos ⟨rfl, rfl⟩]

theorem get?_define_of_not_isNearest (ht : t < s.frames.size)
    (h : ¬(y = x ∧ (s.define t x v).IsNearest f x t)) :
    (s.define t x v).get? f y = s.get? f y := by
  rcases (s.define t x v).isUnbound_or_isNearest f y with hnone | ⟨g, hg⟩
  · rw [hnone.get?, (hnone.of_define ht).get?]
  · -- either way the value comes from a frame whose own binding has not changed
    have hne : ¬(g = t ∧ y = x) := by
      rintro ⟨rfl, rfl⟩
      exact h ⟨rfl, hg⟩
    rw [hg.get?, (hg.of_define ht hne).get?, get?_bindingsOf_define ht, if_neg hne]

/-! ## 4. Where a name is set -/

/-- The frame where a name is set from `e`: the nearest one that binds it, and if none does the one
    without a parent at the end of the chain. -/
def IsWritten (s : Store) (e : Nat) (x : String) (t : Nat) : Prop :=
  s.IsNearest e x t ∨
    (s.IsUnbound e x ∧ (s.chain e).getLast? = some t ∧ s.parent? t = none)

theorem IsWritten.target? (h : s.IsWritten e x t) : s.target? e x = some t := by
  rcases h with h | ⟨hnone, hlast, -⟩
  · rw [Store.target?, owner?_eq_some_iff.2 h, Option.some_or]
  · rw [Store.target?, owner?_eq_none_iff.2 hnone, Option.none_or, hlast]

theorem IsWritten.lt (h : s.IsWritten e x t) : t < s.frames.size :=
  (mem_chainFrom (mem_chain_of_target? h.target?)).1

theorem Linked.exists_isWritten (hs : s.Linked) (he : e < s.frames.size) (x : String) :
    ∃ t, s.IsWritten e x t := by
  rcases s.isUnbound_or_isNearest e x with hnone | ⟨t, ht⟩
  · obtain ⟨t, hlast, hp⟩ := exists_top hs he
    exact ⟨t, .inr ⟨hnone, hlast, hp⟩⟩
  · exact ⟨t, .inl ht⟩

/-- `s'` differs from `s` as it does after `x` was set from `e`. All frames for which `t`, where it
    is set, is now the nearest one to bind `x` see the value, and all else is seen as before. No
    frame has another parent, none binds another name, but for `x` in `t`, and none has another
    value for another name. -/
structure SetsAt (s : Store) (e : Nat) (x : String) (v : Value) (t : Nat) (s' : Store) :
    Prop where
  written : s.IsWritten e x t
  seen : ∀ f, s'.IsNearest f x t → s'.get? f x = some v
  unseen : ∀ f y, ¬(y = x ∧ s'.IsNearest f x t) → s'.get? f y = s.get? f y
  size : s'.frames.size = s.frames.size
  parent : ∀ f, s'.parent? f = s.parent? f
  names : ∀ f y, (s'.bindingsOf f).binds y = true ↔
    (s.bindingsOf f).binds y = true ∨ (f = t ∧ y = x)
  values : ∀ f y, ¬(f = t ∧ y = x) → (s'.bindingsOf f).get? y = (s.bindingsOf f).get? y

theorem IsWritten.setsAt (h : s.IsWritten e x t) (v : Value) :
    s.SetsAt e x v t (s.set e x v) := by
  have hset : s.set e x v = s.define t x v := by rw [Store.set, h.target?]
  rw [hset]
  exact
    { written := h
      seen := fun f => get?_define_of_isNearest h.lt
      unseen := fun f y => get?_define_of_not_isNearest h.lt
      size := size_modifyBindings s t _
      parent := fun f => parent?_modifyBindings s t f _
      names := fun f y => binds_define_iff h.lt f x y v
      values := fun f y hne => by rw [get?_bindingsOf_define h.lt, if_neg hne] }

end Setting

/-- **Frames are a correct scoped store under sharing.** However a host has come by its frames and
    handles, for every frame, name and value,

    * setting the name writes to one frame, as `SetsAt` says for all frames and names;
    * every handle leads to a frame, and all walks outward end;
    * every chain is what following parents leads over, a frame has a name exactly if it sees a
      value for it, and the depth is the length of the chain. -/
theorem set_at_nearest {s : Store} {handles : List Nat} (h : Grown s handles) {e : Nat}
    (he : e < s.frames.size) (x : String) (v : Value) :
    (∃ t, s.SetsAt e x v t (s.set e x v)) ∧
    (∀ f ∈ handles, f < s.frames.size) ∧ s.Walks ∧
    ∀ f < s.frames.size, s.LeadsOut f (s.chain f) ∧
      (∀ y, s.has f y = true ↔ ∃ u, s.get? f y = some u) ∧
      s.depth f = (s.chain f).length := by
  have hs := h.ordered.linked
  obtain ⟨t, ht⟩ := hs.exists_isWritten he x
  refine ⟨⟨t, ht.setsAt v⟩, h.ordered.handle_lt, hs.walks, fun f hf => ?_⟩
  refine ⟨hs.leadsOut hf, fun y => ?_, rfl⟩
  rw [has_eq_isSome_get?, Option.isSome_iff_exists]

/-- Three frames, one inside the other, and two handles to the innermost one. The name is defined in
    the outer two and the middle one is then cleared: what is set from the inside goes to the
    outermost frame and is seen from all three. -/
theorem set_at_nearest_cleared :
    let s : Store := ⟨#[⟨none, [("x", .string "a")]⟩, ⟨some 0, []⟩, ⟨some 1, []⟩], #[], .initial⟩
    Grown s [0, 1, 2, 2] ∧ s.SetsAt 2 "x" (.string "b") 0 (s.set 2 "x" (.string "b")) ∧
      ∀ f < 3, (s.set 2 "x" (.string "b")).get? f "x" = some (.string "b") := by
  intro s
  have h₁ : Grown _ [0] := .step .start .new
  have h₂ : Grown _ [0, 1] := .step h₁ (.child (by decide : 0 ∈ [0]))
  have h₃ : Grown _ [0, 1, 2] := .step h₂ (.child (by decide : 1 ∈ [0, 1]))
  have h₄ : Grown _ [0, 1, 2] := .step h₃ (.define (by decide : 0 ∈ [0, 1, 2]) "x" (.string "a"))
  have h₅ : Grown _ [0, 1, 2] := .step h₄ (.define (by decide : 1 ∈ [0, 1, 2]) "x" (.string "b"))
  have h₆ : Grown _ [0, 1, 2, 2] := .step h₅ (.copy (by decide : 2 ∈ [0, 1, 2]))
  have hs : Grown s [0, 1, 2, 2] := .step h₆ (.clear (by decide : 1 ∈ [0, 1, 2, 2]))
  obtain ⟨⟨t, ht⟩, -⟩ := set_at_nearest hs (by decide : 2 < s.frames.size) "x" (.string "b")
  have htarget : s.target? 2 "x" = some 0 := by decide
  rw [ht.written.target?, Option.some_inj] at htarget
  exact ⟨hs, htarget ▸ ht, by decide⟩

end HostedLisp.Store
