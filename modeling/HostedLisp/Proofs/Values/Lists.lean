import HostedLisp.Expression.Items
import HostedLisp.Proofs.Values.Equality
import HostedLisp.Proofs.Values.Shortcut

/-!
# Lists and their items, there and back

A list is built from items and gives them back in order. The way around, from a pair to its items
and to the list of those, makes a proper list of every chain: a tail becomes the last item and gets
a cell of its own.

* `spine` -- the cells along the chain of a pair;
* `length_restItems` -- a chain has as many items as cells, and one more if it has a tail;
* `erase_chain_restItems_iff`, `resembles_chain_restItems_iff` -- the list of the items of a chain
  is the chain again, cells apart, if and only if the chain is proper;
* `list_items_inverse` -- **building a list and taking its items are inverse to each other**, on
  proper lists exactly, and up to `equal?` on all pairs.
-/

namespace HostedLisp

namespace Expression

/-! ## 1. Chains -/

/-- The cells along the rest fields, from a chain's first pair on. -/
def spine {ι : Type} : Expression ι → List ι
  | pair c _ rest => c :: rest.spine
  | _ => []

/-- Each cell of a chain holds an item, and a tail is one item more. -/
theorem length_restItems {ι : Type} (e : Expression ι) :
    e.restItems.length = e.spine.length + if e.isProper then 0 else 1 := by
  induction e with
  | pair c first rest _ ihRest =>
    rw [restItems, spine, isProper, List.length_cons, List.length_cons, ihRest]
    exact Nat.add_right_comm ..
  | _ => rfl

/-- A pair is the chain that begins with it. -/
theorem items_of_isPair {ι : Type} {e : Expression ι} (h : e.isPair = true) :
    e.items = e.restItems := by
  cases e with
  | pair => rfl
  | _ => cases h

/-! ## 2. The list of the items of a chain -/

open Effects (chain)

/-- It has the structure of the chain exactly if the chain has no tail. -/
theorem erase_chain_restItems_iff (e : Value) (cell : Nat) :
    (chain cell e.restItems).erase = e.erase ↔ e.isProper = true := by
  induction e generalizing cell with
  | pair c first rest _ ihRest =>
    rw [restItems, chain, erase, erase, pair.injEq, isProper, ihRest]
    simp only [true_and]
  | emptyList => exact ⟨fun _ => rfl, fun _ => rfl⟩
  | _ => simp [restItems, chain, erase, isProper]

/-- A value resembles itself unless it is not-a-number: a pair does by its cell. -/
theorem resembles_self_iff (v : Value) :
    v.resembles v = true ↔ ∀ x, v = number x → x.isNaN = false := by
  cases v <;> simp [resembles]

/-- In new cells, the comparison finds it to be the chain if there is neither a tail nor
    not-a-number among the items. -/
theorem resembles_chain_restItems_iff {m : Memory} {e : Value} (he : e.Fits m) {cell : Nat}
    (hfree : m.Free cell) : (chain cell e.restItems).resembles e = true ↔
      e.isProper = true ∧ ∀ x, number x ∈ e.restItems → x.isNaN = false := by
  induction e generalizing cell with
  | pair c first rest _ ihRest =>
    obtain ⟨hcell, -, hrest⟩ := he
    have hne : cell ≠ c := by
      rintro rfl
      rw [hfree cell (Nat.le_refl cell)] at hcell
      cases hcell
    have hnumber : (∀ x, number x ∈ first :: rest.restItems → x.isNaN = false) ↔
        (∀ x, first = number x → x.isNaN = false) ∧
          ∀ x, number x ∈ rest.restItems → x.isNaN = false := by
      simp only [List.mem_cons, or_imp, forall_and, eq_comm]
    rw [restItems, chain, resembles, beq_false_of_ne hne, Bool.false_or, Bool.and_eq_true,
      resembles_self_iff, ihRest hrest (hfree.mono (Nat.le_succ cell)), isProper, hnumber]
    exact and_left_comm
  | _ => simp [restItems, chain, resembles, isProper]

/-- It has the normal form of the chain in every case. -/
theorem bare_normalRest_chain (e : Value) (cell : Nat) :
    (chain cell e.restItems).normalRest.bare = e.normalRest.bare := by
  induction e generalizing cell with
  | pair c first rest _ ihRest =>
    rw [restItems, chain, normalRest, normalRest, bare, bare, ihRest]
  | _ => rfl

/-- So it equals the pair that the chain begins with. -/
theorem equivalent_chain_items {n : Nat} {p : Value} (hp : p.isPair = true) (hsound : p.Sound n)
    {cell : Nat} (hlist : (chain cell p.items).Sound n) :
    (chain cell p.items).equivalent p = .ok true := by
  cases p with
  | pair c first rest =>
    have hbare := bare_normalRest_chain (pair c first rest) cell
    have hnormal : (chain cell (pair c first rest).items).normal.alike (pair c first rest).normal
        = true := alike_iff.2 hbare
    rw [(equivalent_eq_alike hlist (Effects.isExpression_chain ..)).1 _ hsound rfl, hnormal]
  | _ => cases hp

/-- The items of a sound pair are sound expressions. -/
theorem sound_items {n : Nat} {p : Value} (hp : p.isPair = true) (h : p.Sound n) :
    ∀ u ∈ p.items, u.isExpression = true ∧ u.Sound n := by
  have hexpression : p.isExpression = true := by
    cases p with
    | pair => rfl
    | _ => cases hp
  exact forall_items (fun {_ _ _} h => h.2) ⟨hexpression, h⟩

end Expression

/-! ## 3. There and back -/

open Expression

theorem Effects.list_succeeds_iff (w : Effects) (vs : List Value) :
    (∃ v w', w.list vs = (.ok v, w')) ↔ ∀ u ∈ vs, u.isExpression = true := by
  constructor
  · rintro ⟨v, w', h⟩
    exact (list_eq_ok h).1
  · intro h
    exact ⟨_, _, list_of_isExpression h w⟩

/-- **Lists and sequences of values are converted into each other without loss.** Building a list
    succeeds if and only if every item is an expression. The list has the given items in order and
    as many; it is the empty list if there are none, and a proper pair otherwise.

    The items of a pair at hand, which was read or built by `cons` or `list`, can always be built
    into a list. The list

    * has the structure of the pair if and only if the pair is proper, and resembles it if and only
      if moreover not-a-number is not one of the items;
    * equals the pair in every case.

    And the pair has as many items as its chain has cells, and one more if it is dotted. -/
theorem list_items_inverse :
    (∀ (w : Effects) (vs : List Value),
      ((∃ v w', w.list vs = (.ok v, w')) ↔ ∀ u ∈ vs, u.isExpression = true) ∧
      ∀ v w', w.list vs = (.ok v, w') →
        v.items = vs ∧ v.items.length = vs.length ∧ (v.isEmptyList = true ↔ vs = []) ∧
          (vs ≠ [] → v.isPair = true ∧ v.isProper = true)) ∧
    ∀ (w : Effects) (held : List Value), Held w held → ∀ p ∈ held, p.isPair = true →
      ∃ v w', w.list p.items = (.ok v, w') ∧
        (v.erase = p.erase ↔ p.isProper = true) ∧
        (v.resembles p = true ↔
          p.isProper = true ∧ ∀ x, .number x ∈ p.items → x.isNaN = false) ∧
        v.equivalent p = .ok true ∧
        p.items.length = p.spine.length + if p.isProper then 0 else 1 := by
  refine ⟨fun w vs => ⟨w.list_succeeds_iff vs, ?_⟩, fun w held h p hp hpair => ?_⟩
  · intro v w' h
    obtain ⟨-, rfl, -⟩ := Effects.list_eq_ok h
    refine ⟨Effects.items_chain .., by rw [Effects.items_chain], ?_, fun hne => ⟨?_, ?_⟩⟩
    · cases vs <;> simp [Effects.chain, isEmptyList]
    · cases vs with
      | nil => exact absurd rfl hne
      | cons => rfl
    · exact Effects.isProper_chain ..
  · obtain ⟨m, n, hin⟩ := h.exists_memory
    have hitems := sound_items hpair (hin.sound p hp)
    have hlist := Effects.list_of_isExpression (fun u hu => (hitems u hu).1) w
    have hsound := sound_of_builtFrom (fun u hu => (hitems u hu).2)
      (Effects.builtFrom_of_list hlist)
    have hequal := equivalent_chain_items hpair (hin.sound p hp) hsound
    rw [items_of_isPair hpair] at hlist hequal ⊢
    exact ⟨_, _, hlist, erase_chain_restItems_iff p _,
      resembles_chain_restItems_iff (hin.fits p hp) hin.free, hequal, length_restItems p⟩

/-- The dotted pair `(1 . 2)`, whose items make the list `(1 2)`, and the list `(1 . 2)` and `()`
    make, in which the pair is an item. -/
theorem list_items_inverse_dotted :
    let dotted : Value := .pair 0 (.number 1.0) (.number 2.0)
    let proper : Value := .pair 1 dotted (.pair 2 .emptyList .emptyList)
    (∃ v w', Effects.list dotted.items ⟨3, ""⟩ = (.ok v, w') ∧ v.erase ≠ dotted.erase ∧
      v.equivalent dotted = .ok true ∧ dotted.items.length = dotted.spine.length + 1) ∧
    ∃ v w', Effects.list proper.items ⟨3, ""⟩ = (.ok v, w') ∧ v.erase = proper.erase ∧
      v.resembles proper = true ∧ proper.items.length = proper.spine.length := by
  intro dotted proper
  have hleaves : Held ⟨0, ""⟩ [.number 1.0, .number 2.0, .emptyList] :=
    (((Held.none ⟨0, ""⟩).leaf rfl).leaf rfl).leaf rfl
  have hdotted : Held ⟨1, ""⟩ [dotted, .number 1.0, .number 2.0, .emptyList] :=
    hleaves.cons (a := .number 1.0) (b := .number 2.0) (by simp) (by simp) rfl
  have hproper : Held ⟨3, ""⟩ [proper, dotted, .number 1.0, .number 2.0, .emptyList] :=
    hdotted.list (show [dotted, .emptyList] ⊆ _ by simp) rfl
  obtain ⟨-, hback⟩ := list_items_inverse
  obtain ⟨v, w, hv, herase, -, hequal, hlength⟩ := hback _ _ hproper dotted (by simp) rfl
  obtain ⟨u, w', hu, herase', hresembles, -, hlength'⟩ := hback _ _ hproper proper (by simp) rfl
  have hnumbers : ∀ x, (.number x : Value) ∈ proper.items → x.isNaN = false := by
    intro x hx
    simp [proper, dotted, items, restItems] at hx
  have hdifferent : v.erase ≠ dotted.erase := fun he => Bool.false_ne_true (herase.1 he)
  exact ⟨⟨v, w, hv, hdifferent, hequal, hlength⟩,
    u, w', hu, herase'.2 rfl, hresembles.2 ⟨rfl, hnumbers⟩, hlength'⟩

end HostedLisp
