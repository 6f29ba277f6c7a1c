import HostedLisp.Store

/-!
# What writing to a frame changes

Changing the bindings of a frame leaves all parents, and so all chains, as they are; it changes
what one frame binds and nothing else. A new frame changes no frame that was there. What a frame
sees is bound on its chain, and what is set is set there.
-/

namespace HostedLisp

/-! ## 1. Bindings -/

namespace Bindings

theorem binds_set (b : Bindings) (x y : String) (v : Value) :
    (b.set x v).binds y = (decide (x = y) || b.binds y) := by
  by_cases h : x = y <;> simp [binds, get?_set, h]

theorem mem_of_get? {b : Bindings} {x : String} {v : Value} (h : b.get? x = some v) :
    (x, v) ∈ b := by
  induction b with
  | nil => cases h
  | cons p rest ih =>
    obtain ⟨y, w⟩ := p
    rw [get?] at h
    split at h
    · rename_i hy
      cases h
      rw [hy]
      exact List.mem_cons_self
    · exact List.mem_cons_of_mem _ (ih h)

theorem mem_set {b : Bindings} {x : String} {v : Value} {p : String × Value}
    (h : p ∈ b.set x v) : p = (x, v) ∨ p ∈ b := by
  induction b with
  | nil => exact .inl (List.mem_singleton.1 h)
  | cons q rest ih =>
    rw [set] at h
    split at h
    · exact (List.mem_cons.1 h).imp_right (List.mem_cons_of_mem q)
    · rcases List.mem_cons.1 h with rfl | h
      · exact .inr List.mem_cons_self
      · exact (ih h).imp_right (List.mem_cons_of_mem q)

theorem mem_setAll {b : Bindings} {new : List (String × Value)} {p : String × Value}
    (h : p ∈ b.setAll new) : p ∈ new ∨ p ∈ b := by
  induction new generalizing b with
  | nil => exact .inr h
  | cons q new ih =>
    rcases ih h with hp | hp
    · exact .inl (List.mem_cons_of_mem q hp)
    · rcases mem_set hp with rfl | hp
      · exact .inl List.mem_cons_self
      · exact .inr hp

end Bindings

namespace Store

/-! ## 2. Changed bindings -/

theorem frames_modifyBindings (s : Store) (f g : Nat) (change : Bindings → Bindings) :
    (s.modifyBindings f change).frames[g]?
      = if f = g then
          s.frames[g]?.map fun frame => { frame with bindings := change frame.bindings }
        else s.frames[g]? := by
  simp [modifyBindings, Array.getElem?_modify]

@[simp] theorem size_modifyBindings (s : Store) (f : Nat) (change : Bindings → Bindings) :
    (s.modifyBindings f change).frames.size = s.frames.size := by
  simp [modifyBindings]

@[simp] theorem parent?_modifyBindings (s : Store) (f g : Nat) (change : Bindings → Bindings) :
    (s.modifyBindings f change).parent? g = s.parent? g := by
  simp only [parent?, frames_modifyBindings]
  split
  · cases s.frames[g]? <;> rfl
  · rfl

theorem bindingsOf_modifyBindings (s : Store) {f : Nat} (g : Nat) (change : Bindings → Bindings)
    (hf : f < s.frames.size) :
    (s.modifyBindings f change).bindingsOf g
      = if f = g then change (s.bindingsOf g) else s.bindingsOf g := by
  simp only [bindingsOf, frames_modifyBindings]
  split
  · rename_i h
    subst h
    simp [hf]
  · rfl

/-- A chain is a matter of parents only. -/
theorem chainFrom_congr {frames frames' : Array Frame}
    (h : ∀ f : Nat, frames'[f]?.map Frame.parent = frames[f]?.map Frame.parent) (n f : Nat) :
    chainFrom frames' n f = chainFrom frames n f := by
  induction n generalizing f with
  | zero => rfl
  | succ n ih =>
    have hf := h f
    simp only [chainFrom]
    cases hs : frames[f]? with
    | none =>
      rw [hs, Option.map_none, Option.map_eq_none_iff] at hf
      rw [hf]
    | some frame =>
      rw [hs, Option.map_some, Option.map_eq_some_iff] at hf
      obtain ⟨frame', hs', hp⟩ := hf
      rw [hs']
      dsimp only
      rw [hp]
      cases frame.parent with
      | none => rfl
      | some p => exact congrArg (f :: ·) (ih p)

@[simp] theorem chain_modifyBindings (s : Store) (f g : Nat) (change : Bindings → Bindings) :
    (s.modifyBindings f change).chain g = s.chain g := by
  rw [chain, chain, size_modifyBindings]
  refine chainFrom_congr (fun f' => ?_) _ _
  rw [frames_modifyBindings]
  split
  · cases s.frames[f']? <;> rfl
  · rfl

/-! ## 3. New frames -/

@[simp] theorem frames_newFrame (s : Store) (parent : Option Nat) (bindings : Bindings) :
    (s.newFrame parent bindings).2.frames = s.frames.push ⟨parent, bindings⟩ :=
  rfl

theorem size_newFrame (s : Store) (parent : Option Nat) (bindings : Bindings) :
    (s.newFrame parent bindings).2.frames.size = s.frames.size + 1 := by
  rw [frames_newFrame, Array.size_push]

theorem bindingsOf_newFrame (s : Store) (parent : Option Nat) (bindings : Bindings) (g : Nat) :
    (s.newFrame parent bindings).2.bindingsOf g
      = if g = s.frames.size then bindings else s.bindingsOf g := by
  simp only [bindingsOf, frames_newFrame, Array.getElem?_push]
  split <;> rfl

theorem parent?_newFrame (s : Store) (parent : Option Nat) (bindings : Bindings) (g : Nat) :
    (s.newFrame parent bindings).2.parent? g
      = if g = s.frames.size then parent else s.parent? g := by
  simp only [parent?, frames_newFrame, Array.getElem?_push]
  split <;> rfl

/-! ## 4. Reading along a chain -/

theorem exists_mem_of_get? {s : Store} {f : Nat} {x : String} {v : Value}
    (h : s.get? f x = some v) : ∃ g ∈ s.chain f, (x, v) ∈ s.bindingsOf g := by
  obtain ⟨g, hg, hv⟩ := List.exists_of_findSome?_eq_some h
  exact ⟨g, hg, Bindings.mem_of_get? hv⟩

/-- A frame sees a name exactly if it sees a value for it. -/
theorem has_eq_isSome_get? (s : Store) (f : Nat) (x : String) :
    s.has f x = (s.get? f x).isSome := by
  rw [has, owner?, get?, Bool.eq_iff_iff, List.find?_isSome, List.findSome?_isSome_iff]
  rfl

theorem mem_chain_of_target? {s : Store} {f g : Nat} {x : String} (h : s.target? f x = some g) :
    g ∈ s.chain f := by
  rw [target?, Option.or_eq_some_iff] at h
  rcases h with h | ⟨-, h⟩
  · exact List.mem_of_find?_eq_some h
  · exact List.mem_of_getLast? h

/-- The parameters of a call are bound to its arguments. -/
theorem mem_of_argumentBindings {parameters args : List Value} {b : Bindings}
    {p : String × Value} (h : argumentBindings parameters args = .ok b) (hp : p ∈ b) :
    p.2 ∈ args := by
  unfold argumentBindings at h
  split at h
  · split at h
    · cases h
    · cases h
      rcases Bindings.mem_setAll hp with hp | hp
      · exact (List.of_mem_zip hp).2
      · cases hp
  · cases h

end Store

end HostedLisp
