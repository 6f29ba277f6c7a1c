import HostedLisp.Proofs.Values.Cells

/-!
# Equality item by item

`equal?` compares the items of two pairs one by one. A tail counts as an item, so `(1 . 2)` equals
`(1 2)`, and so it is at every depth. What is compared is in truth a normal form in which every
chain is a proper list; two normal forms are alike if they have one shape and identical leaves.

* `normal` -- every dotted chain, at every depth, as the proper list of its items
  (`normal_of_isPair`);
* `alike` -- the same shape, with identical leaves in the same places;
* `equivalent_eq_alike` -- **two expressions are equal if and only if their normal forms are
  alike**;
* `Held.equivalent_isEquivalence` -- it fails for what is no expression only, and on expressions it
  is an equivalence that identity implies.
-/

namespace HostedLisp

namespace Expression

/-! ## 1. Normal forms -/

mutual

/-- The expression with a proper list for every dotted chain. Cells do not matter here; the pair
    that takes in a tail is marked with any. -/
def normal : Value → Value
  | pair c first rest => pair c first.normal rest.normalRest
  | leaf => leaf

/-- The rest of such a list, from a rest field on. -/
def normalRest : Value → Value
  | pair c first rest => pair c first.normal rest.normalRest
  | emptyList => emptyList
  | tail => pair 0 tail emptyList

end

theorem isProper_normalRest (v : Value) : v.normalRest.isProper = true := by
  induction v with
  | pair c first rest _ ihRest => exact ihRest
  | _ => rfl

theorem restItems_normalRest (v : Value) : v.normalRest.restItems = v.restItems.map normal := by
  induction v with
  | pair c first rest _ ihRest =>
    rw [normalRest, restItems, restItems, List.map_cons, ihRest]
  | _ => rfl

/-- A pair in normal form is a proper list, of the normal forms of its items. -/
theorem normal_of_isPair {v : Value} (h : v.isPair = true) :
    v.normal.isProper = true ∧ v.normal.items = v.items.map normal := by
  cases v with
  | pair c first rest =>
    refine ⟨isProper_normalRest rest, ?_⟩
    rw [normal, items, items, List.map_cons, restItems_normalRest]
  | _ => cases h

/-! ## 2. Shapes and leaves -/

/-- The same shape, and identical leaves. -/
def alike : Value → Value → Bool
  | pair _ first rest, pair _ first' rest' => first.alike first' && rest.alike rest'
  | a, b => a.identical b

/-- The expression without what `alike` does not look at: cells, and the names of references. -/
def bare : Value → Value
  | pair _ first rest => pair 0 first.bare rest.bare
  | hostFunction id _ => hostFunction id ""
  | leaf => leaf

/-- Being alike is to agree in all that is looked at. That it is an equivalence is then no matter of
    its cases. -/
theorem alike_iff {a b : Value} : a.alike b = true ↔ a.bare = b.bare := by
  induction a generalizing b with
  | pair c first rest ihFirst ihRest =>
    cases b with
    | pair d first' rest' => simp [alike, bare, ihFirst, ihRest]
    | _ => simp [alike, identical, bare]
  | _ => cases b <;> simp [alike, identical, bare]

theorem restItems_bare (v : Value) : v.bare.restItems = v.restItems.map bare := by
  induction v with
  | pair c first rest _ ihRest => rw [bare, restItems, restItems, List.map_cons, ihRest]
  | _ => rfl

/-- Lists whose normal forms are alike have equally many items. -/
theorem length_restItems_of_alike {a b : Value} (h : a.normalRest.alike b.normalRest = true) :
    a.restItems.length = b.restItems.length := by
  have hitems : a.normalRest.bare.restItems = b.normalRest.bare.restItems := by
    rw [alike_iff.1 h]
  simpa [restItems_bare, restItems_normalRest] using congrArg List.length hitems

/-! ## 3. The comparison -/

theorem distinguish_eq_ok_iff {a b : Value} {r : Bool} : distinguish a b = .ok r ↔
    (a.isExpression = true ∧ b.isExpression = true) ∧ a.identical b = r := by
  cases ha : a.isExpression <;> cases hb : b.isExpression <;> simp [distinguish, ha, hb]

theorem distinguish_fails_iff {a b : Value} :
    (∃ e, distinguish a b = .error e) ↔ a.isExpression = false ∨ b.isExpression = false := by
  cases ha : a.isExpression <;> cases hb : b.isExpression <;> simp [distinguish, ha, hb]

section Leaves

variable {a b : Value}

/-- Where there is no pair on both sides, equality is identity. -/
theorem equivalent_of_leaf (h : a.isPair = false ∨ b.isPair = false) :
    a.equivalent b = distinguish a b := by
  cases a with
  | pair c first rest =>
    cases b with
    | pair => simp [isPair] at h
    | _ => rfl
  | _ => rfl

theorem alike_normal_of_leaf (h : a.isPair = false ∨ b.isPair = false) :
    a.normal.alike b.normal = a.identical b := by
  cases a with
  | pair c first rest =>
    cases b with
    | pair => simp [isPair] at h
    | _ => rfl
  | _ => cases b <;> rfl

end Leaves

/-- Two pairs are compared like two chains, if they have equally many items. -/
theorem equivalent_pair (c d : Nat) (first rest first' rest' : Value) :
    (pair c first rest).equivalent (pair d first' rest') =
      if rest.restItems.length = rest'.restItems.length then
        (pair c first rest).equivalentRest (pair d first' rest')
      else .ok false := by
  rw [equivalent, equivalentRest]

/-- A chain with one item, in a pair or as a tail, has one normal form. -/
theorem normalRest_of_restItems_eq {a x : Value} (h : a.restItems = [x]) :
    ∃ c, a.normalRest = pair c x.normal emptyList := by
  cases a with
  | pair c first rest =>
    obtain ⟨rfl, hrest⟩ := List.cons.inj h
    cases rest with
    | emptyList => exact ⟨c, rfl⟩
    | _ => cases hrest
  | emptyList => cases h
  | _ =>
    cases h
    exact ⟨0, rfl⟩

theorem alike_of_restItems_eq {a b x y : Value} (ha : a.restItems = [x]) (hb : b.restItems = [y]) :
    a.normalRest.alike b.normalRest = x.normal.alike y.normal := by
  obtain ⟨c, hc⟩ := normalRest_of_restItems_eq ha
  obtain ⟨d, hd⟩ := normalRest_of_restItems_eq hb
  rw [hc, hd, alike]
  exact Bool.and_true _

/-- **Two expressions are equal if and only if their normal forms are alike.** By induction on the
    first one, together with the same for chains of equally many items: there a tail can meet the
    last item of a proper list. -/
theorem equivalent_eq_alike {n : Nat} {a : Value} (ha : a.Sound n) (hea : a.isExpression = true) :
    (∀ b : Value, b.Sound n → b.isExpression = true →
      a.equivalent b = .ok (a.normal.alike b.normal)) ∧
    ∀ b : Value, b.Sound n → b.isExpression = true →
      a.restItems.length = b.restItems.length →
      a.equivalentRest b = .ok (a.normalRest.alike b.normalRest) := by
  have hleaf : ∀ a b : Value, a.isPair = false ∨ b.isPair = false → a.isExpression = true →
      b.isExpression = true → distinguish a b = .ok (a.normal.alike b.normal) := by
    intro a b h hea heb
    exact distinguish_eq_ok_iff.2 ⟨⟨hea, heb⟩, (alike_normal_of_leaf h).symm⟩
  induction a with
  | pair c first rest ihFirst ihRest =>
    obtain ⟨⟨hef, hf⟩, her, hr⟩ := ha
    have hpairs : ∀ (d : Nat) (first' rest' : Value), (pair d first' rest').Sound n →
        rest.restItems.length = rest'.restItems.length →
        (pair c first rest).equivalentRest (pair d first' rest') =
          .ok ((pair c first rest).normal.alike (pair d first' rest').normal) := by
      intro d first' rest' hb hlength
      obtain ⟨⟨hef', hf'⟩, her', hr'⟩ := hb
      rw [equivalentRest, (ihFirst hf hef).1 first' hf' hef',
        (ihRest hr her).2 rest' hr' her' hlength, normal, normal, alike]
      cases first.normal.alike first'.normal <;> rfl
    refine ⟨fun b hb heb => ?_, fun b hb heb hlength => ?_⟩
    · cases b with
      | pair d first' rest' =>
        rw [equivalent_pair]
        split
        · rename_i hlength
          exact hpairs d first' rest' hb hlength
        · rename_i hlength
          have halike : rest.normalRest.alike rest'.normalRest = false := by
            rw [← Bool.not_eq_true]
            exact fun h => hlength (length_restItems_of_alike h)
          rw [normal, normal, alike, halike, Bool.and_false]
      | _ => exact hleaf _ _ (.inr rfl) hea heb
    · cases b with
      | pair d first' rest' => exact hpairs d first' rest' hb (Nat.succ.inj hlength)
      | emptyList => cases hlength
      | _ =>
        have hrest : rest.restItems = [] := List.eq_nil_of_length_eq_zero (Nat.succ.inj hlength)
        have hlast : (pair c first rest).restItems = [first] := by rw [restItems, hrest]
        rw [alike_of_restItems_eq hlast rfl]
        exact hleaf first _ (.inr rfl) hef heb
  | emptyList =>
    refine ⟨fun b _ heb => hleaf _ b (.inl rfl) hea heb, fun b _ _ hlength => ?_⟩
    cases b with
    | emptyList => rfl
    | _ => cases hlength
  | _ =>
    refine ⟨fun b _ heb => hleaf _ b (.inl rfl) hea heb, fun b hb heb hlength => ?_⟩
    cases b with
    | emptyList => cases hlength
    | pair d first' rest' =>
      have hrest : rest'.restItems = [] :=
        List.eq_nil_of_length_eq_zero (Nat.succ.inj hlength).symm
      have hlast : (pair d first' rest').restItems = [first'] := by rw [restItems, hrest]
      rw [alike_of_restItems_eq rfl hlast]
      exact hleaf _ first' (.inl rfl) hea hb.1.1
    | _ =>
      rw [alike_of_restItems_eq rfl rfl]
      exact hleaf _ _ (.inl rfl) hea heb

/-- Equality fails for what is no expression, and for nothing else. -/
theorem equivalent_fails_iff {n : Nat} {a b : Value} (ha : a.Sound n) (hb : b.Sound n) :
    (∃ e, a.equivalent b = .error e) ↔ a.isExpression = false ∨ b.isExpression = false := by
  by_cases hboth : a.isExpression = true ∧ b.isExpression = true
  · obtain ⟨hea, heb⟩ := hboth
    simp [(equivalent_eq_alike ha hea).1 b hb heb, hea, heb]
  · have hleaf : a.isPair = false ∨ b.isPair = false := by
      cases a with
      | pair =>
        cases b with
        | pair => exact absurd ⟨rfl, rfl⟩ hboth
        | _ => exact .inr rfl
      | _ => exact .inl rfl
    rw [equivalent_of_leaf hleaf, distinguish_fails_iff]

end Expression

/-! ## 4. Values at hand -/

open Expression

/-- **Equality is an equivalence, and what it compares are normal forms.** For all values at hand,
    whose pairs were read or built by `cons` or `list`,

    * equality fails if and only if one of the two values is no expression;
    * two expressions are equal if and only if their normal forms have the same shape and identical
      leaves;
    * on expressions equality is reflexive, symmetric and transitive;
    * values that `eq?` finds identical are equal. -/
theorem Held.equivalent_isEquivalence {w : Effects} {vs : List Value} (h : Held w vs) :
    (∀ a ∈ vs, ∀ b ∈ vs, (∃ e, a.equivalent b = .error e) ↔
      a.isExpression = false ∨ b.isExpression = false) ∧
    (∀ a ∈ vs, ∀ b ∈ vs, a.isExpression = true → b.isExpression = true →
      a.equivalent b = .ok (a.normal.alike b.normal)) ∧
    (∀ a ∈ vs, a.isExpression = true → a.equivalent a = .ok true) ∧
    (∀ a ∈ vs, ∀ b ∈ vs, a.isExpression = true → b.isExpression = true →
      a.equivalent b = b.equivalent a) ∧
    (∀ a ∈ vs, ∀ b ∈ vs, ∀ c ∈ vs, a.equivalent b = .ok true → b.equivalent c = .ok true →
      a.equivalent c = .ok true) ∧
    ∀ a ∈ vs, ∀ b ∈ vs, distinguish a b = .ok true → a.equivalent b = .ok true := by
  obtain ⟨m, n, hin⟩ := h.exists_memory
  have hfails : ∀ a ∈ vs, ∀ b ∈ vs, (∃ e, a.equivalent b = .error e) ↔
      a.isExpression = false ∨ b.isExpression = false :=
    fun a ha b hb => equivalent_fails_iff (hin.sound a ha) (hin.sound b hb)
  have halike : ∀ a ∈ vs, ∀ b ∈ vs, a.isExpression = true → b.isExpression = true →
      a.equivalent b = .ok (a.normal.alike b.normal) :=
    fun a ha b hb hea heb => (equivalent_eq_alike (hin.sound a ha) hea).1 b (hin.sound b hb) heb
  have hrefl : ∀ a ∈ vs, a.isExpression = true → a.equivalent a = .ok true := by
    intro a ha hea
    rw [halike a ha a ha hea hea, alike_iff.2 rfl]
  -- an answer was given for expressions only
  have htrue : ∀ a ∈ vs, ∀ b ∈ vs, a.equivalent b = .ok true →
      (a.isExpression = true ∧ b.isExpression = true) ∧ a.normal.bare = b.normal.bare := by
    intro a ha b hb he
    have hexpressions : a.isExpression = true ∧ b.isExpression = true := by
      have hno : ¬ ∃ e, a.equivalent b = .error e := by simp [he]
      simpa [hfails a ha b hb] using hno
    rw [halike a ha b hb hexpressions.1 hexpressions.2] at he
    exact ⟨hexpressions, alike_iff.1 (Except.ok.inj he)⟩
  refine ⟨hfails, halike, hrefl, fun a ha b hb hea heb => ?_, fun a ha b hb c hc hab hbc => ?_,
    fun a ha b hb he => ?_⟩
  · rw [halike a ha b hb hea heb, halike b hb a ha heb hea]
    exact congrArg _ (Bool.eq_iff_iff.2 (by rw [alike_iff, alike_iff, eq_comm]))
  · obtain ⟨⟨hea, -⟩, hab⟩ := htrue a ha b hb hab
    obtain ⟨⟨-, hec⟩, hbc⟩ := htrue b hb c hc hbc
    rw [halike a ha c hc hea hec, alike_iff.2 (hab.trans hbc)]
  · cases hp : a.isPair with
    | false =>
      rw [equivalent_of_leaf (.inl hp)]
      exact he
    | true =>
      obtain ⟨⟨hea, -⟩, hidentical⟩ := distinguish_eq_ok_iff.1 he
      obtain rfl := h.eq_of_identical ha hb hp hidentical
      exact hrefl a ha hea

/-- The dotted pair `(("a" . #t) . x)` and the list `(("a" #t) x)`, where `x` is not a number, next
    to the unspecified value. -/
theorem Held.equivalent_isEquivalence_dotted :
    let a : Value := .string "a"
    let t : Value := .boolean true
    let x : Value := .number (0.0 / 0.0)
    let dotted : Value := .pair 1 (.pair 0 a t) x
    let proper : Value := Effects.chain 4 [Effects.chain 2 [a, t], x]
    dotted.equivalent proper = .ok true ∧ proper.equivalent dotted = .ok true ∧
      ∃ e, dotted.equivalent .unspecified = .error e := by
  intro a t x dotted proper
  have hleaves : Held ⟨0, ""⟩ [a, t, x, .unspecified] :=
    ((((Held.none ⟨0, ""⟩).leaf rfl).leaf rfl).leaf rfl).leaf rfl
  have hinner : Held ⟨1, ""⟩ [.pair 0 a t, a, t, x, .unspecified] :=
    hleaves.cons (a := a) (b := t) (by simp) (by simp) rfl
  have hdotted : Held ⟨2, ""⟩ [dotted, .pair 0 a t, a, t, x, .unspecified] :=
    hinner.cons (a := .pair 0 a t) (b := x) (by simp) (by simp) rfl
  have hlist : Held ⟨4, ""⟩ [Effects.chain 2 [a, t], dotted, .pair 0 a t, a, t, x, .unspecified] :=
    hdotted.list (show [a, t] ⊆ _ by simp) rfl
  have hproper : Held ⟨6, ""⟩
      [proper, Effects.chain 2 [a, t], dotted, .pair 0 a t, a, t, x, .unspecified] :=
    hlist.list (show [Effects.chain 2 [a, t], x] ⊆ _ by simp) rfl
  obtain ⟨hfails, halike, -, hsymm, -⟩ := hproper.equivalent_isEquivalence
  have hnormal : dotted.normal.alike proper.normal = true := alike_iff.2 rfl
  have hequal : dotted.equivalent proper = .ok true := by
    rw [halike dotted (by simp) proper (by simp) rfl rfl, hnormal]
  refine ⟨hequal, ?_, (hfails dotted (by simp) .unspecified (by simp)).2 (.inr rfl)⟩
  rw [← hsymm dotted (by simp) proper (by simp) rfl rfl, hequal]

end HostedLisp
