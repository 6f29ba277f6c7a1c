import HostedLisp.Store.Lemmas

/-!
# Chains without cycles

The walks from a frame outward go over the chain of the frame, and the chain is cut off after as
many frames as there are (`chainFrom`). If no frame is its own ancestor, nothing is ever cut off:
a chain holds no frame twice, so it is complete, and every walk ends in a frame without a parent.

* `Acyclic`, `Linked` -- no frame is its own ancestor; and all references lead to frames;
* `chain_of_parent` -- the chain of a frame is the frame and the chain of its parent;
* `acyclic_of_rank` -- parents of lower rank make no cycle;
* `Walks` -- **all walks outward end**, and `get?`, `set`, `has` and `depth` are what walking one
  frame at a time comes to (`Linked.walks`).
-/

namespace HostedLisp.Store

/-! ## 1. Ancestors -/

/-- The frame `p` is the parent of the frame `f`. -/
def IsParent (s : Store) (p f : Nat) : Prop := s.parent? f = some p

/-- No frame is its own ancestor. -/
def Acyclic (s : Store) : Prop := ∀ f, ¬Relation.TransGen s.IsParent f f

/-- The procedures were made in frames that exist. -/
def Bounded (s : Store) : Prop :=
  ∀ (id : Nat) (p : Procedure), s.procedures[id]? = some p → p.frame < s.frames.size

/-- Every reference leads to a frame that exists, and following parents leads around no cycle. -/
structure Linked (s : Store) : Prop where
  bounded : s.Bounded
  parent_lt : ∀ f p, s.parent? f = some p → p < s.frames.size
  acyclic : s.Acyclic

/-- **Parents of lower rank make no cycle.** -/
theorem acyclic_of_rank {s : Store} (rank : Nat → Nat)
    (h : ∀ f p, s.parent? f = some p → rank p < rank f) : s.Acyclic := by
  have hlt : ∀ g f, Relation.TransGen s.IsParent g f → rank g < rank f := by
    intro g f hgf
    induction hgf with
    | single hp => exact h _ _ hp
    | tail _ hp ih => exact Nat.lt_trans ih (h _ _ hp)
  intro f hf
  exact Nat.lt_irrefl _ (hlt f f hf)

section Chains

variable {s : Store} {f p : Nat}

/-- What has a parent is a frame. -/
theorem lt_of_parent? (h : s.parent? f = some p) : f < s.frames.size := by
  rw [parent?, Option.bind_eq_some_iff] at h
  obtain ⟨frame, hframe, -⟩ := h
  exact (Array.getElem?_eq_some_iff.1 hframe).1

/-! ## 2. Chains are complete -/

theorem chainFrom_of_global (n : Nat) (hf : f < s.frames.size) (hp : s.parent? f = none) :
    chainFrom s.frames (n + 1) f = [f] := by
  rw [parent?, Array.getElem?_eq_getElem hf, Option.bind_some] at hp
  rw [chainFrom, Array.getElem?_eq_getElem hf]
  simp only [hp]

theorem chainFrom_of_parent (n : Nat) (hp : s.parent? f = some p) :
    chainFrom s.frames (n + 1) f = f :: chainFrom s.frames n p := by
  have hf := lt_of_parent? hp
  rw [parent?, Array.getElem?_eq_getElem hf, Option.bind_some] at hp
  rw [chainFrom, Array.getElem?_eq_getElem hf]
  simp only [hp]

theorem chainFrom_of_le (n : Nat) (hf : s.frames.size ≤ f) : chainFrom s.frames n f = [] := by
  cases n with
  | zero => rfl
  | succ n => rw [chainFrom, Array.getElem?_eq_none hf]

/-- A chain is empty, the frame alone, or the frame and the chain of its parent. -/
theorem chainFrom_cases (s : Store) (n f : Nat) :
    chainFrom s.frames (n + 1) f = [] ∨
      (f < s.frames.size ∧ chainFrom s.frames (n + 1) f = [f]) ∨
      ∃ p, s.parent? f = some p ∧ chainFrom s.frames (n + 1) f = f :: chainFrom s.frames n p := by
  by_cases hf : f < s.frames.size
  · cases hp : s.parent? f with
    | none => exact .inr (.inl ⟨hf, chainFrom_of_global n hf hp⟩)
    | some p => exact .inr (.inr ⟨p, rfl, chainFrom_of_parent n hp⟩)
  · exact .inl (chainFrom_of_le _ (Nat.not_lt.1 hf))

/-- A chain holds the frame and ancestors of it. -/
theorem mem_chainFrom {n g : Nat} (h : g ∈ chainFrom s.frames n f) :
    g < s.frames.size ∧ (g = f ∨ Relation.TransGen s.IsParent g f) := by
  induction n generalizing f with
  | zero => cases h
  | succ n ih =>
    rcases chainFrom_cases s n f with he | ⟨hf, he⟩ | ⟨p, hp, he⟩
    · rw [he] at h
      cases h
    · rw [he, List.mem_singleton] at h
      exact ⟨h ▸ hf, .inl h⟩
    · rw [he, List.mem_cons] at h
      rcases h with rfl | h
      · exact ⟨lt_of_parent? hp, .inl rfl⟩
      · obtain ⟨hg, rfl | hgp⟩ := ih h
        · exact ⟨hg, .inr (.single hp)⟩
        · exact ⟨hg, .inr (.tail hgp hp)⟩

/-- No chain holds a frame twice. -/
theorem nodup_chainFrom (hs : s.Acyclic) (n f : Nat) : (chainFrom s.frames n f).Nodup := by
  induction n generalizing f with
  | zero => exact List.nodup_nil
  | succ n ih =>
    rcases chainFrom_cases s n f with he | ⟨hf, he⟩ | ⟨p, hp, he⟩
    · rw [he]
      exact List.nodup_nil
    · rw [he]
      exact List.nodup_cons.2 ⟨List.not_mem_nil, List.nodup_nil⟩
    · rw [he, List.nodup_cons]
      refine ⟨fun hm => ?_, ih p⟩
      -- a frame on the chain of its parent would be its own ancestor
      obtain ⟨-, rfl | hfp⟩ := mem_chainFrom hm
      · exact hs f (.single hp)
      · exact hs f (.tail hfp hp)

/-- So no chain is longer than there are frames. -/
theorem length_chainFrom_le (hs : s.Acyclic) (n f : Nat) :
    (chainFrom s.frames n f).length ≤ s.frames.size := by
  have hsub : chainFrom s.frames n f ⊆ List.range s.frames.size := by
    intro g hg
    exact List.mem_range.2 (mem_chainFrom hg).1
  have hlen := (nodup_chainFrom hs n f).length_le_of_subset hsub
  rwa [List.length_range] at hlen

/-- A chain that ends before it is cut off is the same with a later cut. -/
theorem chainFrom_succ_of_length_le {n f : Nat}
    (h : (chainFrom s.frames (n + 1) f).length ≤ n) :
    chainFrom s.frames (n + 1) f = chainFrom s.frames n f := by
  induction n generalizing f with
  | zero => exact List.length_eq_zero_iff.1 (Nat.le_zero.1 h)
  | succ n ih =>
    by_cases hf : f < s.frames.size
    · cases hp : s.parent? f with
      | none => rw [chainFrom_of_global _ hf hp, chainFrom_of_global _ hf hp]
      | some p =>
        rw [chainFrom_of_parent _ hp, List.length_cons] at h
        rw [chainFrom_of_parent (n + 1) hp, chainFrom_of_parent n hp,
          ih (Nat.le_of_succ_le_succ h)]
    · rw [chainFrom_of_le _ (Nat.not_lt.1 hf), chainFrom_of_le _ (Nat.not_lt.1 hf)]

theorem chain_eq_chainFrom_succ (hs : s.Acyclic) (f : Nat) :
    s.chain f = chainFrom s.frames (s.frames.size + 1) f :=
  (chainFrom_succ_of_length_le (length_chainFrom_le hs _ f)).symm

theorem chain_of_global (hf : f < s.frames.size) (hp : s.parent? f = none) : s.chain f = [f] := by
  obtain ⟨n, hn⟩ := Nat.exists_eq_succ_of_ne_zero (Nat.ne_zero_of_lt hf)
  rw [chain, hn]
  exact chainFrom_of_global n hf hp

/-- **The chain of a frame is the frame and the chain of its parent.** -/
theorem chain_of_parent (hs : s.Acyclic) (hp : s.parent? f = some p) :
    s.chain f = f :: s.chain p := by
  rw [chain_eq_chainFrom_succ hs f, chainFrom_of_parent _ hp, chain]

theorem depth_of_parent (hs : s.Acyclic) (hp : s.parent? f = some p) :
    s.depth f = s.depth p + 1 := by
  rw [depth, depth, chain_of_parent hs hp, List.length_cons]

theorem depth_le_size (hs : s.Acyclic) (f : Nat) : s.depth f ≤ s.frames.size :=
  length_chainFrom_le hs _ f

/-- Walking from frame to parent comes to an end. -/
theorem wellFounded_isParent (hs : s.Acyclic) : WellFounded s.IsParent := by
  refine Subrelation.wf ?_ (InvImage.wf s.depth Nat.lt_wfRel.wf)
  intro p f hp
  show s.depth p < s.depth f
  rw [depth_of_parent hs hp]
  exact Nat.lt_succ_self _

/-! ## 3. Walks -/

/-- The outermost frame of a chain has no parent. -/
theorem exists_top (hs : s.Linked) (hf : f < s.frames.size) :
    ∃ g, (s.chain f).getLast? = some g ∧ s.parent? g = none := by
  induction f using (wellFounded_isParent hs.acyclic).induction with
  | _ f ih =>
    cases hp : s.parent? f with
    | none => exact ⟨f, by rw [chain_of_global hf hp]; rfl, hp⟩
    | some p =>
      obtain ⟨g, hg, hglobal⟩ := ih p hp (hs.parent_lt f p hp)
      refine ⟨g, ?_, hglobal⟩
      rw [chain_of_parent hs.acyclic hp, List.getLast?_cons, hg]
      rfl

/-- **All walks outward end**, in a frame without a parent, and what the four operations do is what
    a walk does that looks at one frame after the other. -/
structure Walks (s : Store) : Prop where
  ends : WellFounded s.IsParent
  top : ∀ f < s.frames.size, ∃ g, (s.chain f).getLast? = some g ∧ s.parent? g = none
  get : ∀ f < s.frames.size, ∀ x, s.get? f x =
    match (s.bindingsOf f).get? x with
    | some v => some v
    | none => (s.parent? f).bind fun p => s.get? p x
  set : ∀ f < s.frames.size, ∀ x v, s.set f x v =
    match s.parent? f with
    | none => s.define f x v
    | some p => if (s.bindingsOf f).binds x then s.define f x v else s.set p x v
  has : ∀ f < s.frames.size, ∀ x, s.has f x =
    ((s.bindingsOf f).binds x || (s.parent? f).any fun p => s.has p x)
  depth : ∀ f < s.frames.size, s.depth f =
    match s.parent? f with
    | none => 1
    | some p => s.depth p + 1

theorem Linked.walks (hs : s.Linked) : s.Walks where
  ends := wellFounded_isParent hs.acyclic
  top _ hf := exists_top hs hf
  get f hf x := by
    cases hp : s.parent? f with
    | none =>
      rw [get?, chain_of_global hf hp, List.findSome?_cons]
      cases (s.bindingsOf f).get? x <;> rfl
    | some p =>
      rw [get?, chain_of_parent hs.acyclic hp, List.findSome?_cons]
      cases (s.bindingsOf f).get? x <;> rfl
  set f hf x v := by
    cases hp : s.parent? f with
    | none =>
      rw [Store.set, target?, owner?, chain_of_global hf hp, List.find?_cons]
      cases (s.bindingsOf f).binds x <;> rfl
    | some p =>
      rw [Store.set, target?, owner?, chain_of_parent hs.acyclic hp, List.find?_cons]
      cases hb : (s.bindingsOf f).binds x with
      | true => simp
      | false =>
        obtain ⟨g, hg, -⟩ := exists_top hs (hs.parent_lt f p hp)
        simp [Store.set, target?, owner?, List.getLast?_cons, hg]
  has f hf x := by
    cases hp : s.parent? f with
    | none =>
      rw [Store.has, owner?, chain_of_global hf hp, List.find?_cons]
      cases (s.bindingsOf f).binds x <;> rfl
    | some p =>
      rw [Store.has, owner?, chain_of_parent hs.acyclic hp, List.find?_cons]
      cases (s.bindingsOf f).binds x <;> rfl
  depth f hf := by
    cases hp : s.parent? f with
    | none => rw [Store.depth, chain_of_global hf hp, List.length_singleton]
    | some p => exact depth_of_parent hs.acyclic hp

end Chains

end HostedLisp.Store
