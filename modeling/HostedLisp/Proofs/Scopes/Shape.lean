import HostedLisp.Proofs.Evaluation.Steps

/-!
# The shape of scopes

Evaluation writes to frames that other parts of the program still use. What it leaves alone is
their shape: a frame keeps its parent; a frame inside another one binds the names that it bound when
it was made, and only their values change; a frame without a parent may come to bind more names; and
a new frame stands inside an older one.

* `Keeps` -- what a store keeps of the shape of an earlier one;
* `Step.keeps` -- one step keeps it, where chains have no cycles;
* `Keeps.linked` -- and then they still have none;
* `Run.keeps` -- so it is for a run of steps;
* `eval_keeps` -- **evaluation never disturbs the shape of existing scopes**.
-/

namespace HostedLisp

namespace Store

/-! ## 1. Shapes -/

/-- The frames of `s` have kept their shape in `s'`, and new frames stand inside older ones. -/
structure Keeps (s s' : Store) : Prop where
  size_le : s.frames.size ≤ s'.frames.size
  parent : ∀ g < s.frames.size, s'.parent? g = s.parent? g
  /-- A frame with a parent binds the same names. -/
  inner : ∀ g < s.frames.size, s.parent? g ≠ none →
    ∀ x, (s'.bindingsOf g).binds x = (s.bindingsOf g).binds x
  /-- A frame without a parent binds at least the same names. -/
  outer : ∀ g < s.frames.size, s.parent? g = none →
    ∀ x, (s.bindingsOf g).binds x = true → (s'.bindingsOf g).binds x = true
  created : ∀ g < s'.frames.size, s.frames.size ≤ g → ∃ p < g, s'.parent? g = some p

section Shape

variable {s s₁ s₂ : Store} {f g : Nat} {x : String}

/-- The shape is a matter of frames only. -/
theorem keeps_of_frames_eq (h : s₁.frames = s.frames) : Keeps s s₁ where
  size_le := Nat.le_of_eq (by rw [h])
  parent g _ := by rw [parent?, parent?, h]
  inner g _ _ x := by rw [bindingsOf, bindingsOf, h]
  outer g _ _ x hx := by rwa [bindingsOf, h]
  created g hlt hle := absurd hlt (by rw [h]; exact Nat.not_lt.2 hle)

theorem Keeps.trans (h : Keeps s s₁) (h' : Keeps s₁ s₂) : Keeps s s₂ where
  size_le := Nat.le_trans h.size_le h'.size_le
  parent g hg := by rw [h'.parent g (Nat.lt_of_lt_of_le hg h.size_le), h.parent g hg]
  inner g hg hp x := by
    have hp' : s₁.parent? g ≠ none := by rwa [h.parent g hg]
    rw [h'.inner g (Nat.lt_of_lt_of_le hg h.size_le) hp' x, h.inner g hg hp x]
  outer g hg hp x hx := by
    have hp' : s₁.parent? g = none := by rw [h.parent g hg, hp]
    exact h'.outer g (Nat.lt_of_lt_of_le hg h.size_le) hp' x (h.outer g hg hp x hx)
  created g hlt hle := by
    by_cases hg : g < s₁.frames.size
    · obtain ⟨p, hpg, hp⟩ := h.created g hg hle
      exact ⟨p, hpg, by rw [h'.parent g hg, hp]⟩
    · exact h'.created g hlt (Nat.not_lt.1 hg)

/-! ## 2. One step -/

/-- A name is set where it is bound already, or in a frame without a parent. -/
theorem target?_cases (hs : s.Linked) (h : s.target? f x = some g) :
    g < s.frames.size ∧ ((s.bindingsOf g).binds x = true ∨ s.parent? g = none) := by
  rw [target?, Option.or_eq_some_iff] at h
  rcases h with h | ⟨-, h⟩
  · have hm : g ∈ s.chain f := List.mem_of_find?_eq_some h
    have hb := List.find?_some h
    exact ⟨(mem_chainFrom hm).1, .inl hb⟩
  · have hm : g ∈ s.chain f := List.mem_of_getLast? h
    have hf : f < s.frames.size := by
      by_cases hf : f < s.frames.size
      · exact hf
      · rw [chain, chainFrom_of_le _ (Nat.not_lt.1 hf)] at hm
        cases hm
    obtain ⟨top, htop, hp⟩ := exists_top hs hf
    cases h.symm.trans htop
    exact ⟨(mem_chainFrom hm).1, .inr hp⟩

/-- Binding a name keeps the shape, if the frame binds it already or has no parent. -/
theorem keeps_define (hg : g < s.frames.size)
    (h : (s.bindingsOf g).binds x = true ∨ s.parent? g = none) (v : Value) :
    Keeps s (s.define g x v) where
  size_le := Nat.le_of_eq (size_modifyBindings s g _).symm
  parent f _ := parent?_modifyBindings s g f _
  inner f _ hp y := by
    rw [define, bindingsOf_modifyBindings s f _ hg]
    split
    · rename_i he
      subst he
      have hx : (s.bindingsOf g).binds x = true := h.resolve_right hp
      rw [Bindings.binds_set]
      by_cases hxy : x = y
      · rw [← hxy, hx, Bool.or_true]
      · rw [decide_eq_false hxy, Bool.false_or]
    · rfl
  outer f _ _ y hy := by
    rw [define, bindingsOf_modifyBindings s f _ hg]
    split
    · rw [Bindings.binds_set, hy, Bool.or_true]
    · exact hy
  created f hlt hle := by
    rw [define, size_modifyBindings] at hlt
    exact absurd hlt (Nat.not_lt.2 hle)

theorem keeps_newFrame (hf : f < s.frames.size) (bindings : Bindings) :
    Keeps s (s.newFrame (some f) bindings).2 where
  size_le := by rw [frames_newFrame, Array.size_push]; exact Nat.le_succ _
  parent g hg := by rw [parent?_newFrame, if_neg (Nat.ne_of_lt hg)]
  inner g hg _ x := by rw [bindingsOf_newFrame, if_neg (Nat.ne_of_lt hg)]
  outer g hg _ x hx := by rwa [bindingsOf_newFrame, if_neg (Nat.ne_of_lt hg)]
  created g hlt hle := by
    rw [frames_newFrame, Array.size_push] at hlt
    have hg : g = s.frames.size := by omega
    subst hg
    exact ⟨f, hf, by rw [parent?_newFrame, if_pos rfl]⟩

/-- **One step keeps the shape.** -/
theorem Step.keeps (h : Step s s₁) (hs : s.Linked) : Keeps s s₁ := by
  cases h with
  | effects w => exact keeps_of_frames_eq rfl
  | set f x v =>
    rcases set_cases s f x v with he | ⟨g, hg, he⟩
    · rw [he]
      exact keeps_of_frames_eq rfl
    · rw [he]
      obtain ⟨hlt, hb⟩ := target?_cases hs hg
      exact keeps_define hlt hb v
  | procedure parameters body f hf => exact keeps_of_frames_eq rfl
  | frame parent bindings hp => exact keeps_newFrame hp bindings

/-! ## 3. Cycles -/

/-- **Where the shape is kept no cycle comes about.** Old frames have the parents they had, so
    they are ranked by their depth; new frames come after all of them, in the order in which they
    were made. -/
theorem Keeps.linked (h : Keeps s s₁) (hs : s.Linked) (hb : s₁.Bounded) : s₁.Linked := by
  have hold : ∀ g < s.frames.size, ∀ p, s₁.parent? g = some p →
      s.parent? g = some p ∧ p < s.frames.size := by
    intro g hg p hp
    rw [h.parent g hg] at hp
    exact ⟨hp, hs.parent_lt g p hp⟩
  have hnew : ∀ g p, s.frames.size ≤ g → s₁.parent? g = some p → p < g := by
    intro g p hg hp
    obtain ⟨q, hq, hp'⟩ := h.created g (lt_of_parent? hp) hg
    cases hp.symm.trans hp'
    exact hq
  refine ⟨hb, fun g p hp => ?_, acyclic_of_rank
    (fun g => if g < s.frames.size then s.depth g else s.frames.size + 1 + g) fun g p hp => ?_⟩
  · by_cases hg : g < s.frames.size
    · exact Nat.lt_of_lt_of_le (hold g hg p hp).2 h.size_le
    · have hlt := lt_of_parent? hp
      have := hnew g p (Nat.not_lt.1 hg) hp
      omega
  · by_cases hg : g < s.frames.size
    · obtain ⟨hp', hlt⟩ := hold g hg p hp
      rw [if_pos hg, if_pos hlt, depth_of_parent hs.acyclic hp']
      exact Nat.lt_succ_self _
    · have hlt := hnew g p (Nat.not_lt.1 hg) hp
      have hd := depth_le_size hs.acyclic p
      rw [if_neg hg]
      split <;> omega

/-! ## 4. Runs -/

/-- **A run of steps keeps the shape** and makes no cycle. -/
theorem Run.keeps (h : Run s s₁) (hs : s.Linked) : Keeps s s₁ ∧ s₁.Linked := by
  induction h with
  | start => exact ⟨keeps_of_frames_eq rfl, hs⟩
  | step _ hstep ih =>
    obtain ⟨hk, hl⟩ := ih
    have hk' := hstep.keeps hl
    exact ⟨hk.trans hk', hk'.linked hl (hstep.bounded hl.bounded)⟩

end Shape

end Store

namespace Eval

open Store

/-- **Evaluation never disturbs the shape of existing scopes.** Wherever the frames that are
    referred to exist and chains have no cycles, every evaluation in a frame, whatever it comes to,

    * keeps the parents of all frames, the names that frames with a parent bind, and at least the
      names that frames without one bind, and puts each new frame inside an older one;
    * leaves a store whose references lead to frames and whose chains have no cycles;
    * in which all walks outward end, in a frame without a parent. -/
theorem eval_keeps (hosts : Host.Table) (fuel : Nat) {s : Store} {f : Nat} (hs : s.Linked)
    (hf : f < s.frames.size) (e : Value) :
    Keeps s (eval hosts fuel f e s).2 ∧ (eval hosts fuel f e s).2.Linked ∧
      (eval hosts fuel f e s).2.Walks := by
  have hrun : Run s (eval hosts fuel f e s).2 := run_eval hosts fuel f e s ⟨hs.bounded, hf⟩
  obtain ⟨hk, hl⟩ := hrun.keeps hs
  exact ⟨hk, hl, hl.walks⟩

/-- A name that is defined in a frame with a parent does not come to be bound there. -/
theorem eval_keeps_definition :
    let s : Store := ⟨#[⟨none, []⟩, ⟨some 0, [("y", .boolean true)]⟩], #[⟨[], [.symbol "y"], 1⟩],
      .initial⟩
    let e : Value := .pair 0 (.symbol "define") (.pair 1 (.symbol "z") (.pair 2 (.symbol "y")
      .emptyList))
    ((eval #[] 2 1 e s).2.bindingsOf 1).binds "z" = false ∧
      (eval #[] 2 1 e s).2.get? 1 "z" = some (.boolean true) := by
  intro s e
  have hparent : ∀ f p, s.parent? f = some p → f = 1 ∧ p = 0 := by
    intro f p h
    match f with
    | 0 => cases h
    | 1 => cases h; exact ⟨rfl, rfl⟩
    | f + 2 => cases h
  have hs : s.Linked := by
    refine ⟨fun id p h => ?_, fun f p h => ?_, acyclic_of_rank id fun f p h => ?_⟩
    · match id with
      | 0 => cases h; decide
      | id + 1 => cases h
    · obtain ⟨rfl, rfl⟩ := hparent f p h
      decide
    · obtain ⟨rfl, rfl⟩ := hparent f p h
      decide
  have hf : 1 < s.frames.size := by decide
  obtain ⟨hk, -, -⟩ := eval_keeps #[] 2 hs hf e
  exact ⟨hk.inner 1 hf (by decide) "z", by decide⟩

end Eval

end HostedLisp
