import HostedLisp.Proofs.Evaluation.Adequacy
import HostedLisp.Proofs.Values.Equality

/-!
# Evaluating plain data

A pair that does not begin with a callable is data: its operator and its operands are evaluated and
make a new proper list. The operands are the items of the rest field, and a rest field that is no
list has none. So a tail is an item of the value if a pair further on holds it, and is lost if the
pair itself does: `(1 2 . 3)` comes to `(1 2 3)`, but `(1 . 2)` to `(1)`.

* `isData` -- numbers, strings, booleans, empty lists, and pairs of such;
* `intact` -- no pair that is evaluated holds a tail itself;
* `evaluates_data` -- data has a value, and taking cells is all that its evaluation does;
* `data_returns` -- **the value of a pair of data is the list of the values of its items, without a
  tail that it holds itself; it equals the pair if and only if the pair is intact**;
* `data_loses_tail` -- the tail that is lost.
-/

namespace HostedLisp

/-! ## 1. Plain data -/

namespace Expression

/-- Numbers, strings, booleans, empty lists, and pairs of such. -/
def isData : Value → Bool
  | number _ | string _ | boolean _ | emptyList => true
  | pair _ first rest => first.isData && rest.isData
  | _ => false

mutual

/-- No pair that is evaluated has a tail for its rest. -/
def intact : Value → Bool
  | pair _ first rest => first.intact && (rest.isList && rest.intactRest)
  | _ => true

/-- The same for the items of a chain from a rest field on. The pairs of the chain are not evaluated
    themselves, so the last of them may have a tail. -/
def intactRest : Value → Bool
  | pair _ first rest => first.intact && rest.intactRest
  | _ => true

end

section Data

variable {v : Value}

theorem isExpression_of_isData (h : v.isData = true) : v.isExpression = true := by
  cases v with
  | symbol | procedure | hostFunction | unspecified => cases h
  | _ => rfl

theorem sound_of_isData (h : v.isData = true) : v.Sound 0 := by
  induction v with
  | pair c first rest ihFirst ihRest =>
    obtain ⟨hf, hr⟩ := Bool.and_eq_true_iff.1 h
    exact ⟨⟨isExpression_of_isData hf, ihFirst hf⟩, isExpression_of_isData hr, ihRest hr⟩
  | procedure => cases h
  | _ => trivial

theorem isData_chain {vs : List Value} (h : ∀ v ∈ vs, v.isData = true) (cell : Nat) :
    (Effects.chain cell vs).isData = true := by
  induction vs generalizing cell with
  | nil => rfl
  | cons v vs ih =>
    obtain ⟨hv, hvs⟩ := List.forall_mem_cons.1 h
    exact Bool.and_eq_true_iff.2 ⟨hv, ih hvs (cell + 1)⟩

/-- The operands of data: what a rest field holds is a list of them, or is left out. -/
theorem items_of_isData (h : v.isData = true) :
    v.items = if v.isList then v.restItems else [] := by
  cases v with
  | procedure => cases h
  | _ => rfl

end Data

end Expression

/-! ## 2. Evaluation -/

/-- The store when some more cells were taken. -/
def Store.taking (s : Store) (k : Nat) : Store :=
  s.withEffects { s.effects with nextCell := s.effects.nextCell + k }

theorem Store.taking_taking (s : Store) (j k : Nat) : (s.taking j).taking k = s.taking (j + k) := by
  simp only [taking, withEffects, Nat.add_assoc]

namespace Eval

open Expression

variable {hosts : Host.Table} {f : Nat}

/-- From every store the data comes to data, which is alike to it as far as it is intact. -/
def Settles (hosts : Host.Table) (f : Nat) (e : Value) : Prop :=
  ∀ s, ∃ v k, Evaluates hosts s f e (.ok v) (s.taking k) ∧ v.isData = true ∧
    e.normal.alike v.normal = e.intact

/-- The same for the items of a chain from a rest field on. -/
def SettlesRest (hosts : Host.Table) (f : Nat) (e : Value) : Prop :=
  ∀ s, ∃ vs k, EvaluatesEach hosts s f e.restItems (.ok vs) (s.taking k) ∧
    (∀ v ∈ vs, v.isData = true) ∧
    ∀ cell, e.normalRest.alike (Effects.chain cell vs).normalRest = e.intactRest

/-- Data calls nothing: the list of what its operator and its operands come to is its value. -/
theorem evaluates_combination {s : Store} {c j k : Nat} {first rest u : Value} {us : List Value}
    (hfirst : first.isData = true) (hu : u.isData = true) (hus : ∀ v ∈ us, v.isData = true)
    (ho : Evaluates hosts s f first (.ok u) (s.taking j))
    (ha : EvaluatesEach hosts (s.taking j) f rest.items (.ok us) ((s.taking j).taking k)) :
    ∃ n, Evaluates hosts s f (.pair c first rest)
      (.ok (Effects.chain ((s.taking j).taking k).effects.nextCell (u :: us))) (s.taking n) := by
  have hcombination : IsCombination first rest.items (.pair c first rest) := by
    refine ⟨c, rest, rfl, ?_, rfl⟩
    cases first with
    | symbol => cases hfirst
    | _ => rfl
  have hcallee : ((s.taking j).taking k).procedure? u = none ∧ hostOf? hosts u = none := by
    cases u with
    | procedure | hostFunction => cases hu
    | _ => exact ⟨rfl, rfl⟩
  have hdata : ∀ v ∈ u :: us, v.isData = true := List.forall_mem_cons.2 ⟨hu, hus⟩
  have hlist := Effects.list_of_isExpression (fun v hv => isExpression_of_isData (hdata v hv))
    ((s.taking j).taking k).effects
  refine ⟨j + k + (u :: us).length, ?_⟩
  rw [← Store.taking_taking, ← Store.taking_taking]
  exact .combination hcombination ho ha (.data hcallee.1 (fun _ => hcallee.2) hlist)

/-- **A pair of data.** Its items are evaluated in order, but for a tail that the pair holds itself;
    what they come to is the list that it comes to. -/
theorem evaluates_pair {first rest : Value} (c : Nat) (hdf : first.isData = true)
    (hdr : rest.isData = true) (hfirst : Settles hosts f first) (hrest : SettlesRest hosts f rest)
    (s : Store) :
    let p : Value := .pair c first rest
    ∃ vs cell k s₁, Evaluates hosts s f p (.ok (Effects.chain cell vs)) (s.taking k) ∧
      EvaluatesEach hosts s f (if rest.isList then p.items else [first]) (.ok vs) s₁ ∧
      (∀ v ∈ vs, v.isData = true) ∧ p.normal.alike (Effects.chain cell vs).normal = p.intact := by
  intro p
  obtain ⟨u, j, ho, hu, halike⟩ := hfirst s
  have hitems := items_of_isData hdr
  cases hl : rest.isList with
  | true =>
    obtain ⟨us, k, ha, hus, halikeRest⟩ := hrest (s.taking j)
    rw [hl, if_pos rfl] at hitems
    obtain ⟨n, he⟩ := evaluates_combination (c := c) hdf hu hus ho (hitems.symm ▸ ha)
    refine ⟨u :: us, _, n, _, he, .cons ho ha, List.forall_mem_cons.2 ⟨hu, hus⟩, ?_⟩
    rw [Effects.chain, normal, normal, alike, halike, halikeRest, intact, hl, Bool.true_and]
  | false =>
    rw [hl, if_neg Bool.false_ne_true] at hitems
    have ha : EvaluatesEach hosts (s.taking j) f rest.items (.ok []) ((s.taking j).taking 0) := by
      rw [hitems]
      exact .nil
    have hnone : ∀ v ∈ ([] : List Value), v.isData = true := List.forall_mem_nil _
    obtain ⟨n, he⟩ := evaluates_combination (c := c) hdf hu hnone ho ha
    refine ⟨[u], _, n, _, he, .cons ho .nil, List.forall_mem_cons.2 ⟨hu, hnone⟩, ?_⟩
    have htail : rest.normalRest.alike .emptyList = false := by
      cases rest with
      | pair | emptyList | procedure => cases hl
      | _ => rfl
    rw [intact, hl, Bool.false_and, Bool.and_false]
    show (first.normal.alike u.normal && rest.normalRest.alike .emptyList) = false
    rw [htail, Bool.and_false]

/-- **Data has a value, and taking cells is all that its evaluation does.** By induction on the
    data, together with the same for the items of a chain. -/
theorem evaluates_data (hosts : Host.Table) (f : Nat) {e : Value} (he : e.isData = true) :
    Settles hosts f e ∧ SettlesRest hosts f e := by
  induction e with
  | pair c first rest ihFirst ihRest =>
    obtain ⟨hdf, hdr⟩ := Bool.and_eq_true_iff.1 he
    obtain ⟨hfirst, -⟩ := ihFirst hdf
    obtain ⟨-, hrest⟩ := ihRest hdr
    refine ⟨fun s => ?_, fun s => ?_⟩
    · obtain ⟨vs, cell, k, _, hvalue, -, hvs, halike⟩ := evaluates_pair c hdf hdr hfirst hrest s
      exact ⟨_, k, hvalue, isData_chain hvs cell, halike⟩
    · obtain ⟨u, j, ho, hu, halike⟩ := hfirst s
      obtain ⟨us, k, ha, hus, halikeRest⟩ := hrest (s.taking j)
      rw [Store.taking_taking] at ha
      refine ⟨u :: us, j + k, .cons ho ha, List.forall_mem_cons.2 ⟨hu, hus⟩, fun cell => ?_⟩
      rw [Effects.chain, normalRest, normalRest, alike, halike, halikeRest, intactRest]
  | emptyList =>
    exact ⟨fun s => ⟨.emptyList, 0, .constant trivial, rfl, rfl⟩,
      fun s => ⟨[], 0, .nil, List.forall_mem_nil _, fun _ => rfl⟩⟩
  | symbol | procedure | hostFunction | unspecified => cases he
  | _ =>
    -- a constant is its own value, also as a tail
    refine ⟨fun s => ⟨_, 0, .constant trivial, rfl, alike_iff.2 rfl⟩,
      fun s => ⟨[_], 0, .cons (.constant trivial) .nil, ?_, fun _ => alike_iff.2 rfl⟩⟩
    exact List.forall_mem_cons.2 ⟨rfl, List.forall_mem_nil _⟩

/-! ## 3. What is kept and what is lost -/

/-- **Evaluating plain data loses the tail of a pair that holds it itself, and nothing else.** In
    every store and frame, a pair of data

    * is evaluated with a value, if there is enough fuel;
    * leaves the frames, the procedures and the text displayed as they were;
    * comes to a proper list, whose items are in order the values of its own items, where a tail
      counts as the last one unless it is the rest field of the pair itself;
    * equals its value if and only if it is intact: no pair in it that is evaluated, at whatever
      depth, has such a tail. -/
theorem data_returns (hosts : Host.Table) (s : Store) (f c : Nat) {first rest : Value}
    (hdata : (Expression.pair c first rest).isData = true) :
    ∃ v s', Returns hosts s f (.pair c first rest) (.ok v) s' ∧
      s'.frames = s.frames ∧ s'.procedures = s.procedures ∧
      s'.effects.output = s.effects.output ∧
      v.isProper = true ∧
      (∃ s₁, EvaluatesEach hosts s f
        (if rest.isList then (Expression.pair c first rest).items else [first])
        (.ok v.items) s₁) ∧
      (Expression.pair c first rest).equivalent v
        = .ok (Expression.pair c first rest).intact := by
  obtain ⟨hdf, hdr⟩ := Bool.and_eq_true_iff.1 hdata
  obtain ⟨hfirst, -⟩ := evaluates_data hosts f hdf
  obtain ⟨-, hrest⟩ := evaluates_data hosts f hdr
  obtain ⟨vs, cell, k, s₁, hvalue, heach, hvs, halike⟩ :=
    evaluates_pair c hdf hdr hfirst hrest s
  have hlist : (Effects.chain cell vs).isData = true := isData_chain hvs cell
  refine ⟨Effects.chain cell vs, s.taking k, eval_of_evaluates hvalue, rfl, rfl, rfl,
    Effects.isProper_chain cell vs, ⟨s₁, ?_⟩, ?_⟩
  · rw [Effects.items_chain]
    exact heach
  · rw [(equivalent_eq_alike (sound_of_isData hdata) rfl).1 _ (sound_of_isData hlist)
      (isExpression_of_isData hlist), halike]

/-- The pair `("a" ("b" . #t) . #f)`: its own tail is kept, the one inside is lost. -/
theorem data_returns_nested :
    let p : Value := .pair 2 (.string "a") (.pair 1 (.pair 0 (.string "b") (.boolean true))
      (.boolean false))
    ∃ v s', Returns Session.standard.hosts Session.standard.store Session.globalFrame p (.ok v) s' ∧
      v.isProper = true ∧ p.equivalent v = .ok false := by
  intro p
  obtain ⟨v, s', hreturns, -, -, -, hproper, -, hequal⟩ := data_returns Session.standard.hosts
    Session.standard.store Session.globalFrame 2 (show p.isData = true from rfl)
  exact ⟨v, s', hreturns, hproper, hequal⟩

/-- **A tail that is lost**: the pair `(1 . 2)` has two items and comes to a list of one, which it
    does not equal. -/
theorem data_loses_tail :
    let p : Value := .pair 0 (.number 1) (.number 2)
    let v : Value := .pair 1 (.number 1) .emptyList
    let s := Session.standard.store
    ∃ w, s.effects.cons (.number 1) (.number 2) = (.ok p, w) ∧
      p.items = [.number 1, .number 2] ∧
      (eval Session.standard.hosts 2 Session.globalFrame p (s.withEffects w)).1 = .value v ∧
      v.items = [.number 1] ∧ p.equivalent v = .ok false :=
  ⟨⟨1, ""⟩, rfl, rfl, rfl, rfl, rfl⟩

end Eval

end HostedLisp
