import HostedLisp.Proofs.Sessions.WellFormed

/-!
# Pairs and their cells

A value is a tree, and a pair of it only names its cell. That a cell stands for one pair comes from
how pairs are made: `cons`, `list` and reading take a cell that no pair has yet and never fill it
again. So two pairs with one cell are one pair, however they are shared among the values at hand.

* `Memory` -- what each cell that was taken holds;
* `Expression.Fits` -- the pairs of a value are as the memory has them;
* `Held` -- the values that can be at hand after pairs were built, one after the other;
* `Held.exists_memory` -- **there is one memory that all values at hand fit**, and no pair of them
  holds what is no expression;
* `Held.eq_of_identical` -- so identical pairs are equal.
-/

namespace HostedLisp

/-! ## 1. Memories -/

/-- The two fields of each cell that was taken. -/
abbrev Memory := Nat → Option (Value × Value)

namespace Memory

/-- The cells from `next` on are free. -/
def Free (m : Memory) (next : Nat) : Prop := ∀ c, next ≤ c → m c = none

/-- What `m` holds, `m'` holds too. -/
def Extends (m m' : Memory) : Prop := ∀ c fields, m c = some fields → m' c = some fields

/-- The memory with a cell filled. -/
def fill (m : Memory) (c : Nat) (first rest : Value) : Memory :=
  Function.update m c (some (first, rest))

section Fill

variable {m m₁ m₂ : Memory} {next : Nat} {first rest : Value}

theorem Extends.refl (m : Memory) : m.Extends m := fun _ _ h => h

theorem Extends.trans (h : m.Extends m₁) (h' : m₁.Extends m₂) : m.Extends m₂ :=
  fun c fields hc => h' c fields (h c fields hc)

theorem Free.mono {next' : Nat} (h : m.Free next) (hle : next ≤ next') : m.Free next' :=
  fun c hc => h c (Nat.le_trans hle hc)

@[simp] theorem fill_self (m : Memory) (c : Nat) (first rest : Value) :
    m.fill c first rest c = some (first, rest) := Function.update_self ..

/-- Filling the next cell leaves the ones behind it free. -/
theorem Free.fill (h : m.Free next) : (m.fill next first rest).Free (next + 1) := by
  intro c hc
  have hne : c ≠ next := by omega
  rw [Memory.fill, Function.update_of_ne hne]
  exact h c (by omega)

/-- A free cell can be filled without loss. -/
theorem Free.extends_fill (h : m.Free next) : m.Extends (m.fill next first rest) := by
  intro c fields hc
  have hne : c ≠ next := by
    rintro rfl
    rw [h c (Nat.le_refl c)] at hc
    cases hc
  rw [Memory.fill, Function.update_of_ne hne]
  exact hc

end Fill

end Memory

/-! ## 2. Values in a memory -/

namespace Expression

/-- Every pair of the value has the fields that its cell holds. -/
def Fits (m : Memory) : Value → Prop
  | pair c first rest => m c = some (first, rest) ∧ first.Fits m ∧ rest.Fits m
  | _ => True

section Fits

variable {m m' : Memory} {v : Value}

theorem Fits.extend (hm : m.Extends m') (h : v.Fits m) : v.Fits m' := by
  induction v with
  | pair c first rest ihFirst ihRest => exact ⟨hm c _ h.1, ihFirst h.2.1, ihRest h.2.2⟩
  | _ => trivial

theorem fits_of_not_isPair (h : v.isPair = false) : v.Fits m := by
  cases v with
  | pair => cases h
  | _ => trivial

/-- In one memory identical pairs are equal. -/
theorem Fits.eq_of_identical {u : Value} (hu : u.Fits m) (hv : v.Fits m) (hp : u.isPair = true)
    (h : u.identical v = true) : u = v := by
  cases u with
  | pair c first rest =>
    cases v with
    | pair d first' rest' =>
      have hcell : c = d := beq_iff_eq.1 h
      subst hcell
      have hfields : some (first, rest) = some (first', rest') := hu.1.symm.trans hv.1
      cases hfields
      rfl
    | _ => cases h
  | _ => cases hp

/-- A datum gets cells of its own: the memory grows to one that what is marked fits. -/
theorem exists_fits_label (d : Datum) (m : Memory) (next : Nat) (hfree : m.Free next) :
    ∃ m', m.Extends m' ∧ m'.Free (d.label next).2 ∧ (d.label next).1.Fits m' := by
  induction d generalizing m next with
  | pair u first rest ihFirst ihRest =>
    -- the cell of the pair is taken first, when its fields are not there yet
    obtain ⟨m₁, h₁, hfree₁, hfits₁⟩ := ihFirst
      (m.fill next (first.label (next + 1)).1 (rest.label (first.label (next + 1)).2).1)
      (next + 1) hfree.fill
    obtain ⟨m₂, h₂, hfree₂, hfits₂⟩ := ihRest m₁ (first.label (next + 1)).2 hfree₁
    have hcell := (h₁.trans h₂) next _ (Memory.fill_self ..)
    exact ⟨m₂, hfree.extends_fill.trans (h₁.trans h₂), hfree₂, hcell, hfits₁.extend h₂, hfits₂⟩
  | _ => exact ⟨m, .refl m, hfree, trivial⟩

end Fits

end Expression

/-- So does a list, whose items were there before. -/
theorem Effects.exists_fits_chain (vs : List Value) (m : Memory) (next : Nat)
    (hfree : m.Free next) (hvs : ∀ v ∈ vs, v.Fits m) :
    ∃ m', m.Extends m' ∧ m'.Free (next + vs.length) ∧ (chain next vs).Fits m' := by
  induction vs generalizing m next with
  | nil => exact ⟨m, .refl m, hfree, trivial⟩
  | cons v vs ih =>
    obtain ⟨hv, hvs⟩ := List.forall_mem_cons.1 hvs
    have hfill : m.Extends (m.fill next v (chain (next + 1) vs)) := hfree.extends_fill
    obtain ⟨m', h', hfree', hfits'⟩ :=
      ih _ (next + 1) hfree.fill fun u hu => (hvs u hu).extend hfill
    have hcell := h' next _ (Memory.fill_self ..)
    refine ⟨m', hfill.trans h', ?_, hcell, (hv.extend hfill).extend h', hfits'⟩
    rw [List.length_cons, Nat.add_comm vs.length, ← Nat.add_assoc]
    exact hfree'

/-! ## 3. Values at hand -/

/-- The values that can be at hand when some effects were had. Values that are no pairs are free to
    be had. A pair is read or built from values at hand, by `cons` or as a list, and its fields are
    at hand then. Anyone else may take cells in between. -/
inductive Held : Effects → List Value → Prop where
  | none (w : Effects) : Held w []
  | other {w w' : Effects} {vs : List Value} (h : Held w vs) (hw : w.nextCell ≤ w'.nextCell) :
      Held w' vs
  | leaf {w : Effects} {vs : List Value} (h : Held w vs) {v : Value} (hv : v.isPair = false) :
      Held w (v :: vs)
  | read {w : Effects} {vs : List Value} (h : Held w vs) {n : Nat} {d : Datum} (hd : d.Sound n) :
      Held (w.label d).2 ((w.label d).1 :: vs)
  | cons {w w' : Effects} {vs : List Value} (h : Held w vs) {a b v : Value} (ha : a ∈ vs)
      (hb : b ∈ vs) (hv : w.cons a b = (.ok v, w')) : Held w' (v :: vs)
  | list {w w' : Effects} {vs : List Value} (h : Held w vs) {us : List Value} {v : Value}
      (hus : us ⊆ vs) (hv : w.list us = (.ok v, w')) : Held w' (v :: vs)
  | fields {w : Effects} {vs : List Value} (h : Held w vs) {c : Nat} {a b : Value}
      (hp : .pair c a b ∈ vs) : Held w (a :: b :: vs)

namespace Held

/-- What is true of all values at hand: they fit the memory, whose cells from the next one on are
    free, and are sound. -/
structure Within (m : Memory) (n : Nat) (w : Effects) (vs : List Value) : Prop where
  free : m.Free w.nextCell
  fits : ∀ v ∈ vs, v.Fits m
  sound : ∀ v ∈ vs, v.Sound n

/-- One more value, whose cells are new. -/
theorem Within.add {m m' : Memory} {n n' : Nat} {w w' : Effects} {vs : List Value}
    (h : Within m n w vs) (hm : m.Extends m') (hn : n ≤ n') (hfree : m'.Free w'.nextCell)
    {v : Value} (hfits : v.Fits m') (hsound : v.Sound n') : Within m' n' w' (v :: vs) where
  free := hfree
  fits := List.forall_mem_cons.2 ⟨hfits, fun u hu => (h.fits u hu).extend hm⟩
  sound := List.forall_mem_cons.2 ⟨hsound, fun u hu => (h.sound u hu).mono hn⟩

/-- **There is one memory that all values at hand fit**, and they are sound. -/
theorem exists_memory {w : Effects} {vs : List Value} (h : Held w vs) :
    ∃ m n, Within m n w vs := by
  induction h with
  | none w => exact ⟨fun _ => .none, 0, fun _ _ => rfl, nofun, nofun⟩
  | other _ hw ih =>
    obtain ⟨m, n, hin⟩ := ih
    exact ⟨m, n, hin.free.mono hw, hin.fits, hin.sound⟩
  | @leaf w vs _ v hv ih =>
    obtain ⟨m, n, hin⟩ := ih
    obtain ⟨k, hk⟩ : ∃ k, v.Sound k := by
      cases v with
      | pair => cases hv
      | procedure id => exact ⟨id + 1, Nat.lt_succ_self id⟩
      | _ => exact ⟨0, trivial⟩
    exact ⟨m, max n k, hin.add (.refl m) (Nat.le_max_left n k) hin.free
      (Expression.fits_of_not_isPair hv) (hk.mono (Nat.le_max_right n k))⟩
  | @read w vs _ k d hd ih =>
    obtain ⟨m, n, hin⟩ := ih
    obtain ⟨m', hm, hfree, hfits⟩ := Expression.exists_fits_label d m w.nextCell hin.free
    have hsound := (hd.label w.nextCell).mono (Nat.le_max_right n k)
    exact ⟨m', max n k, hin.add hm (Nat.le_max_left n k) hfree hfits hsound⟩
  | @cons w w' vs _ a b v ha hb hv ih =>
    obtain ⟨m, n, hin⟩ := ih
    obtain ⟨hea, heb, rfl, rfl⟩ := Effects.cons_eq_ok hv
    have hm : m.Extends (m.fill w.nextCell a b) := hin.free.extends_fill
    refine ⟨m.fill w.nextCell a b, n, hin.add hm (Nat.le_refl n) hin.free.fill ?_ ?_⟩
    · exact ⟨Memory.fill_self .., (hin.fits a ha).extend hm, (hin.fits b hb).extend hm⟩
    · exact ⟨⟨hea, hin.sound a ha⟩, heb, hin.sound b hb⟩
  | @list w w' vs _ us v hus hv ih =>
    obtain ⟨m, n, hin⟩ := ih
    have hsound := Expression.sound_of_builtFrom (fun u hu => hin.sound u (hus hu))
      (Effects.builtFrom_of_list hv)
    obtain ⟨-, rfl, rfl⟩ := Effects.list_eq_ok hv
    obtain ⟨m', hm, hfree, hfits⟩ := Effects.exists_fits_chain us m w.nextCell hin.free
      fun u hu => hin.fits u (hus hu)
    exact ⟨m', n, hin.add hm (Nat.le_refl n) hfree hfits hsound⟩
  | @fields w vs _ c a b hp ih =>
    obtain ⟨m, n, hin⟩ := ih
    obtain ⟨-, hfa, hfb⟩ := hin.fits _ hp
    obtain ⟨⟨-, hsa⟩, -, hsb⟩ := hin.sound _ hp
    have hb := hin.add (.refl m) (Nat.le_refl n) hin.free hfb hsb
    exact ⟨m, n, hb.add (.refl m) (Nat.le_refl n) hin.free hfa hsa⟩

/-- Identical pairs at hand are equal. -/
theorem eq_of_identical {w : Effects} {vs : List Value} (h : Held w vs) {u v : Value}
    (hu : u ∈ vs) (hv : v ∈ vs) (hp : u.isPair = true) (he : u.identical v = true) : u = v := by
  obtain ⟨m, n, hin⟩ := h.exists_memory
  exact (hin.fits u hu).eq_of_identical (hin.fits v hv) hp he

end Held

end HostedLisp
