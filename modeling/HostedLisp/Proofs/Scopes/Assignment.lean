import HostedLisp.Proofs.Evaluation.Adequacy
import HostedLisp.Proofs.Scopes.Shape

/-!
# Assignments

`(set! x e)` looks for `x` twice: before `e` is evaluated, to see that the name is bound, and
afterwards, to write its value. In between `e` may define, set and call what it likes. Still both
walks find the same frame: the frames of a chain keep their parents, those that come before another
one on the chain have a parent and so come to bind no further names, and a frame that binds a name
never stops to.

* `IsNearest` -- the nearest frame of a chain that binds a name;
* `Keeps.chain_eq`, `Keeps.isNearest` -- evaluation keeps the chains and the nearest frames;
* `Rebinds` -- one binding has another value, and nothing else has changed;
* `assignment_rebinds_nearest` -- **an assignment writes to the binding that it saw and makes
  none**.
-/

namespace HostedLisp

namespace Store

/-! ## 1. The nearest frame -/

/-- `g` is on the chain of `f` and binds the name, and no frame before it on the chain does. -/
def IsNearest (s : Store) (f : Nat) (x : String) (g : Nat) : Prop :=
  ∃ inner outer, s.chain f = inner ++ g :: outer ∧ (s.bindingsOf g).binds x = true ∧
    ∀ h ∈ inner, (s.bindingsOf h).binds x = false

/-- No frame on the chain of `f` binds the name. -/
def IsUnbound (s : Store) (f : Nat) (x : String) : Prop :=
  ∀ g ∈ s.chain f, (s.bindingsOf g).binds x = false

section Nearest

variable {s s₁ : Store} {f g : Nat} {x : String}

theorem owner?_eq_some_iff : s.owner? f x = some g ↔ s.IsNearest f x g := by
  rw [owner?, List.find?_eq_some_iff_append]
  simp only [Bool.not_eq_true']
  constructor
  · rintro ⟨hb, inner, outer, hchain, hinner⟩
    exact ⟨inner, outer, hchain, hb, hinner⟩
  · rintro ⟨inner, outer, hchain, hb, hinner⟩
    exact ⟨hb, inner, outer, hchain, hinner⟩

theorem owner?_eq_none_iff : s.owner? f x = none ↔ s.IsUnbound f x := by
  simp [owner?, IsUnbound]

theorem isUnbound_or_isNearest (s : Store) (f : Nat) (x : String) :
    s.IsUnbound f x ∨ ∃ g, s.IsNearest f x g := by
  cases h : s.owner? f x with
  | none => exact .inl (owner?_eq_none_iff.1 h)
  | some g => exact .inr ⟨g, owner?_eq_some_iff.1 h⟩

theorem IsUnbound.has (h : s.IsUnbound f x) : s.has f x = false := by
  rw [Store.has, owner?_eq_none_iff.2 h]
  rfl

theorem IsNearest.has (h : s.IsNearest f x g) : s.has f x = true := by
  rw [Store.has, owner?_eq_some_iff.2 h]
  rfl

/-- A name is set in the nearest frame that binds it. -/
theorem IsNearest.set (h : s.IsNearest f x g) (v : Value) : s.set f x v = s.define g x v := by
  rw [Store.set, target?, owner?_eq_some_iff.2 h]
  rfl

theorem IsNearest.lt (h : s.IsNearest f x g) : g < s.frames.size := by
  obtain ⟨inner, outer, hchain, -, -⟩ := h
  have hg : g ∈ s.chain f := by
    rw [hchain]
    exact List.mem_append_right _ List.mem_cons_self
  exact (mem_chainFrom hg).1

/-! ## 2. What evaluation keeps of a chain -/

/-- Chains along which numbers fall have no cycles. -/
theorem linked_of_parent_lt (hb : s.Bounded) (h : ∀ f p, s.parent? f = some p → p < f) :
    s.Linked :=
  ⟨hb, fun f p hp => Nat.lt_trans (h f p hp) (lt_of_parent? hp), acyclic_of_rank id h⟩

/-- A frame that comes before another one on a chain has a parent. -/
theorem parent?_ne_none_of_chain (hs : s.Linked) (hf : f < s.frames.size) {inner outer : List Nat}
    (hchain : s.chain f = inner ++ g :: outer) : ∀ h ∈ inner, s.parent? h ≠ none := by
  induction f using (wellFounded_isParent hs.acyclic).induction generalizing inner with
  | _ f ih =>
    cases inner with
    | nil => exact nofun
    | cons k inner =>
      cases hp : s.parent? f with
      | none =>
        rw [chain_of_global hf hp] at hchain
        simp at hchain
      | some p =>
        rw [chain_of_parent hs.acyclic hp, List.cons_append] at hchain
        obtain ⟨rfl, hrest⟩ := List.cons.inj hchain
        refine List.forall_mem_cons.2 ⟨?_, ih p hp (hs.parent_lt f p hp) hrest⟩
        rw [hp]
        exact nofun

/-- **Chains are kept**, since parents are. -/
theorem Keeps.chain_eq (h : Keeps s s₁) (hs : s.Linked) (hs₁ : s₁.Linked)
    (hf : f < s.frames.size) : s₁.chain f = s.chain f := by
  induction f using (wellFounded_isParent hs.acyclic).induction with
  | _ f ih =>
    have hparent := h.parent f hf
    have hf₁ := Nat.lt_of_lt_of_le hf h.size_le
    cases hp : s.parent? f with
    | none => rw [chain_of_global hf hp, chain_of_global hf₁ (hparent.trans hp)]
    | some p =>
      rw [chain_of_parent hs.acyclic hp, chain_of_parent hs₁.acyclic (hparent.trans hp),
        ih p hp (hs.parent_lt f p hp)]

/-- A frame that binds a name goes on to. -/
theorem Keeps.binds (h : Keeps s s₁) (hg : g < s.frames.size)
    (hb : (s.bindingsOf g).binds x = true) : (s₁.bindingsOf g).binds x = true := by
  by_cases hp : s.parent? g = none
  · exact h.outer g hg hp x hb
  · rw [h.inner g hg hp x, hb]

/-- **The nearest frame that binds a name stays the nearest one.** A frame before it has a parent,
    so it binds the names that it has bound. -/
theorem Keeps.isNearest (h : Keeps s s₁) (hs : s.Linked) (hs₁ : s₁.Linked)
    (hf : f < s.frames.size) (hg : s.IsNearest f x g) : s₁.IsNearest f x g := by
  have hlt := hg.lt
  obtain ⟨inner, outer, hchain, hb, hinner⟩ := hg
  refine ⟨inner, outer, (h.chain_eq hs hs₁ hf).trans hchain, h.binds hlt hb, fun k hk => ?_⟩
  have hkmem : k ∈ s.chain f := by
    rw [hchain]
    exact List.mem_append_left _ hk
  rw [h.inner k (mem_chainFrom hkmem).1 (parent?_ne_none_of_chain hs hf hchain k hk) x]
  exact hinner k hk

/-! ## 3. One binding -/

/-- The frame `g`, which binds the name in `s`, binds it in `s'` to `v`; nothing else has changed. -/
structure Rebinds (s : Store) (g : Nat) (x : String) (v : Value) (s' : Store) : Prop where
  bound : (s.bindingsOf g).binds x = true
  value : (s'.bindingsOf g).get? x = some v
  names : ∀ y, y ≠ x → (s'.bindingsOf g).get? y = (s.bindingsOf g).get? y
  parent : s'.parent? g = s.parent? g
  frames : ∀ h, h ≠ g → s'.frames[h]? = s.frames[h]?
  procedures : s'.procedures = s.procedures
  effects : s'.effects = s.effects

theorem IsNearest.rebinds (h : s.IsNearest f x g) (v : Value) :
    s.Rebinds g x v (s.define g x v) := by
  have hlt := h.lt
  have hbindings : (s.define g x v).bindingsOf g = (s.bindingsOf g).set x v := by
    rw [define, bindingsOf_modifyBindings s g _ hlt, if_pos rfl]
  obtain ⟨-, -, -, hb, -⟩ := h
  exact
    { bound := hb
      value := by rw [hbindings, Bindings.get?_set, if_pos rfl]
      names := fun y hy => by rw [hbindings, Bindings.get?_set, if_neg (Ne.symm hy)]
      parent := parent?_modifyBindings s g g _
      frames := fun k hk => by rw [define, frames_modifyBindings, if_neg (Ne.symm hk)]
      procedures := rfl
      effects := rfl }

end Nearest

end Store

namespace Eval

open Store

/-! ## 4. Evaluation -/

section Assignments

variable {hosts : Host.Table} {s s' : Store} {f : Nat} {x : String} {e q : Value}
  {r : Except Error Value}

/-- What is returned with some fuel is returned with enough. -/
theorem returns_of_eval {fuel : Nat} (h : eval hosts fuel f e s = settled s' r) :
    Returns hosts s f e r s' := by
  have hfinished : Finished (eval hosts fuel f e s) := by
    rw [h]
    cases r <;> exact nofun
  exact ⟨fuel, fun _ hle => (eval_of_le hle hfinished).trans h⟩

/-- What is returned takes at least one turn. -/
theorem Returns.exists_succ (h : Returns hosts s f e r s') :
    ∃ fuel, eval hosts (fuel + 1) f e s = settled s' r := by
  obtain ⟨least, h⟩ := h
  exact ⟨least, h (least + 1) (Nat.le_succ least)⟩

/-- Evaluation keeps the nearest frames. -/
theorem isNearest_of_returns (hs : s.Linked) (hf : f < s.frames.size) {g : Nat}
    (hg : s.IsNearest f x g) (h : Returns hosts s f e r s') : s'.IsNearest f x g := by
  obtain ⟨fuel, h⟩ := h
  have hrun : Run s (eval hosts fuel f e s).2 := run_eval hosts fuel f e s ⟨hs.bounded, hf⟩
  have hstore : (eval hosts fuel f e s).2 = s' := by
    rw [h fuel (Nat.le_refl fuel)]
    cases r <;> rfl
  rw [hstore] at hrun
  obtain ⟨hkeeps, hs'⟩ := hrun.keeps hs
  exact hkeeps.isNearest hs hs' hf hg

/-- An assignment to a name that is bound nowhere fails, whatever evaluator there is for its
    expression. -/
theorem turn_assign_of_isUnbound (hx : Keyword.ofName? x = none)
    (he : IsForm .assign [.symbol x, q] e) (h : s.IsUnbound f x) (ev : Evaluator) :
    turn hosts ev f e s = .ended (.failure (.undefinedAssignment x), s) := by
  rw [turn_of_isForm he (readSpecial_assign hx), formTurn, h.has]
  rfl

theorem returns_assign_of_isUnbound (hx : Keyword.ofName? x = none)
    (he : IsForm .assign [.symbol x, q] e) (h : s.IsUnbound f x) :
    Returns hosts s f e r s' ↔ r = .error (.undefinedAssignment x) ∧ s' = s := by
  have heval : ∀ fuel, eval hosts (fuel + 1) f e s
      = settled s (.error (.undefinedAssignment x)) := by
    intro fuel
    rw [eval_succ, turn_assign_of_isUnbound hx he h]
    rfl
  constructor
  · intro hr
    obtain ⟨fuel, hr⟩ := hr.exists_succ
    rw [heval fuel] at hr
    obtain ⟨hr, hs⟩ := settled_inj hr
    exact ⟨hr.symm, hs.symm⟩
  · rintro ⟨rfl, rfl⟩
    exact returns_of_eval (heval 0)

/-- An assignment to a name that is bound evaluates its expression and then sets the name. -/
theorem returns_assign_of_has (hx : Keyword.ofName? x = none)
    (he : IsForm .assign [.symbol x, q] e) (h : s.has f x = true) :
    Returns hosts s f e r s' ↔
      (∃ err, Returns hosts s f q (.error err) s' ∧ r = .error err) ∨
        ∃ u s₁, Returns hosts s f q (.ok u) s₁ ∧ r = .ok .unspecified ∧ s' = s₁.set f x u := by
  have heval : ∀ fuel, eval hosts (fuel + 1) f e s
      = andThen (eval hosts fuel f q s) fun u s₁ => (.value .unspecified, s₁.set f x u) := by
    intro fuel
    rw [eval_succ, turn_of_isForm he (readSpecial_assign hx), formTurn, if_pos h]
    rfl
  constructor
  · intro hr
    obtain ⟨fuel, hr⟩ := hr.exists_succ
    rw [heval] at hr
    rcases andThen_eq_settled hr with ⟨u, s₁, hq, hset⟩ | ⟨err, hq, rfl⟩
    · obtain ⟨hr, hs⟩ := value_eq_settled hset
      exact .inr ⟨u, s₁, returns_of_eval hq, hr.symm, hs.symm⟩
    · exact .inl ⟨err, returns_of_eval hq, rfl⟩
  · rintro (⟨err, hq, rfl⟩ | ⟨u, s₁, hq, rfl, rfl⟩)
    · refine Enough.succ (hq.mono fun fuel hq => ?_)
      rw [heval, hq]
      rfl
    · refine Enough.succ (hq.mono fun fuel hq => ?_)
      rw [heval, hq]
      rfl

/-- **An assignment writes to the binding that it saw and makes none.** Where chains have no cycles,
    for every ordinary name and every expression for its value,

    * if no frame of the chain binds the name, the assignment fails at once: it is the same with
      any evaluator for the expression, and leaves the store as it is;
    * it returns, a value or a failure, exactly if that is so; or if the expression fails, with its
      failure and the store that it leaves; or if the expression comes to a value: then the store
      is the one that the expression leaves, with this value for the name in the frame that was
      the nearest to bind it before, and that still is, and with nothing else changed. -/
theorem assignment_rebinds_nearest (hosts : Host.Table) {s : Store} {f : Nat} (hs : s.Linked)
    (hf : f < s.frames.size) {x : String} (hx : Keyword.ofName? x = none) {e q : Value}
    (he : IsForm .assign [.symbol x, q] e) :
    (s.IsUnbound f x → ∀ ev, turn hosts ev f e s = .ended (.failure (.undefinedAssignment x), s)) ∧
    ∀ r s', Returns hosts s f e r s' ↔
      (s.IsUnbound f x ∧ r = .error (.undefinedAssignment x) ∧ s' = s) ∨
      ∃ g, s.IsNearest f x g ∧
        ((∃ err, Returns hosts s f q (.error err) s' ∧ r = .error err) ∨
          ∃ u s₁, Returns hosts s f q (.ok u) s₁ ∧ r = .ok .unspecified ∧
            s' = s₁.define g x u ∧ s₁.IsNearest f x g ∧ s₁.Rebinds g x u s') := by
  refine ⟨turn_assign_of_isUnbound hx he, fun r s' => ⟨fun h => ?_, ?_⟩⟩
  · rcases s.isUnbound_or_isNearest f x with hnone | ⟨g, hg⟩
    · exact .inl ⟨hnone, (returns_assign_of_isUnbound hx he hnone).1 h⟩
    · refine .inr ⟨g, hg, ?_⟩
      rcases (returns_assign_of_has hx he hg.has).1 h with hfails | ⟨u, s₁, hq, hr, rfl⟩
      · exact .inl hfails
      · -- the expression may have changed the frames of the chain, but not which one is nearest
        have hg₁ := isNearest_of_returns hs hf hg hq
        rw [hg₁.set u]
        exact .inr ⟨u, s₁, hq, hr, rfl, hg₁, hg₁.rebinds u⟩
  · rintro (⟨hnone, hr⟩ | ⟨g, hg, hfails | ⟨u, s₁, hq, hr, rfl, hg₁, -⟩⟩)
    · exact (returns_assign_of_isUnbound hx he hnone).2 hr
    · exact (returns_assign_of_has hx he hg.has).2 (.inl hfails)
    · exact (returns_assign_of_has hx he hg.has).2 (.inr ⟨u, s₁, hq, hr, (hg₁.set u).symm⟩)

end Assignments

/-- In a scope inside the global frame: the expression for the value defines the name anew and reads
    a local name, and the assignment then writes where the name was bound before. A name that is
    bound nowhere is not assigned. -/
theorem assignment_rebinds_nearest_global :
    let s : Store := ⟨#[⟨none, [("x", .boolean false)]⟩, ⟨some 0, [("y", .boolean true)]⟩], #[],
      .initial⟩
    let q : Datum := .ofItems [.symbol "begin", .ofItems [.symbol "define", .symbol "x",
      .string "a"], .symbol "y"]
    let e (x : String) : Value := ((.ofItems [.symbol "set!", .symbol x, q] : Datum).label 0).1
    s.Linked ∧
      (∃ s₁ s', Returns #[] s 1 (q.label 3).1 (.ok (.boolean true)) s₁ ∧
        s₁.get? 1 "x" = some (.string "a") ∧ Returns #[] s 1 (e "x") (.ok .unspecified) s' ∧
        s₁.Rebinds 0 "x" (.boolean true) s') ∧
      ∀ ev, turn #[] ev 1 (e "z") s = .ended (.failure (.undefinedAssignment "z"), s) := by
  intro s q e
  have hs : s.Linked := by
    refine linked_of_parent_lt nofun fun f p h => ?_
    match f with
    | 0 => cases h
    | 1 => cases h; decide
    | f + 2 => cases h
  have hf : 1 < s.frames.size := by decide
  have he (x : String) : IsForm .assign [.symbol x, (q.label 3).1] (e x) := ⟨0, _, rfl, rfl⟩
  have hx : Keyword.ofName? "x" = none := by decide
  have hz : Keyword.ofName? "z" = none := by decide
  let s₁ := s.set 1 "x" (.string "a")
  have hq : Returns #[] s 1 (q.label 3).1 (.ok (.boolean true)) s₁ :=
    returns_of_eval (show eval #[] 3 1 (q.label 3).1 s = settled s₁ (.ok (.boolean true)) by decide)
  have hnearest : s.IsNearest 1 "x" 0 := ⟨[1], [], by decide, by decide, by decide⟩
  have hnearest₁ := isNearest_of_returns hs hf hnearest hq
  have hrebinds := hnearest₁.rebinds (.boolean true)
  refine ⟨hs, ⟨s₁, _, hq, by decide, ?_, hrebinds⟩, ?_⟩
  · exact ((assignment_rebinds_nearest #[] hs hf hx (he "x")).2 _ _).2
      (.inr ⟨0, hnearest, .inr ⟨_, s₁, hq, rfl, rfl, hnearest₁, hrebinds⟩⟩)
  · exact (assignment_rebinds_nearest #[] hs hf hz (he "z")).1 (owner?_eq_none_iff.1 (by decide))

end Eval

end HostedLisp
