import HostedLisp.Host.Standard

/-!
# What host functions return

A host function has no way to reach a frame or a procedure. A standard one does not make up a
reference either: whatever it returns is one of its arguments or a part of one, a plain value, or
pairs of such things.

* `BuiltFrom` -- the values that can be built from given ones;
* `HostFunction.Builds` -- a host function returns nothing else;
* `builds_of_mem_standard` -- **the standard host functions return what can be built from their
  arguments**.
-/

namespace HostedLisp

/-! ## 1. Building values -/

/-- Values that refer to nothing and name nothing. -/
def Expression.isPlain {ι : Type} : Expression ι → Bool
  | .number _ | .string _ | .boolean _ | .emptyList | .unspecified => true
  | _ => false

/-- The values that can be built from given ones: plain values, parts of pairs, and pairs of two
    expressions. -/
inductive BuiltFrom (given : List Value) : Value → Prop where
  | given {v : Value} (h : v ∈ given) : BuiltFrom given v
  | plain {v : Value} (h : v.isPlain = true) : BuiltFrom given v
  | first {c : Nat} {a b : Value} (h : BuiltFrom given (.pair c a b)) : BuiltFrom given a
  | rest {c : Nat} {a b : Value} (h : BuiltFrom given (.pair c a b)) : BuiltFrom given b
  | pair {a b : Value} (c : Nat) (ha : a.isExpression = true) (hb : b.isExpression = true)
      (h : BuiltFrom given a) (h' : BuiltFrom given b) : BuiltFrom given (.pair c a b)

theorem Effects.isExpression_chain (cell : Nat) (vs : List Value) :
    (chain cell vs).isExpression = true := by
  cases vs <;> rfl

/-- A list of given expressions can be built. -/
theorem BuiltFrom.chain {given vs : List Value} (hvs : vs ⊆ given)
    (he : ∀ v ∈ vs, v.isExpression = true) (cell : Nat) :
    BuiltFrom given (Effects.chain cell vs) := by
  induction vs generalizing cell with
  | nil => exact .plain rfl
  | cons v vs ih =>
    have hrest := ih (fun u hu => hvs (List.mem_cons_of_mem v hu))
      (fun u hu => he u (List.mem_cons_of_mem v hu)) (cell + 1)
    exact .pair cell (he v List.mem_cons_self) (Effects.isExpression_chain _ _)
      (.given (hvs List.mem_cons_self)) hrest

/-- A pair that is built has two expressions as its fields and takes the next cell. -/
theorem Effects.cons_eq_ok {a b v : Value} {w w' : Effects} (h : w.cons a b = (.ok v, w')) :
    a.isExpression = true ∧ b.isExpression = true ∧ v = .pair w.nextCell a b ∧
      w' = { w with nextCell := w.nextCell + 1 } := by
  unfold Effects.cons at h
  split at h
  · cases h
  · split at h
    · cases h
    · rename_i ha hb
      cases h
      exact ⟨by simpa using ha, by simpa using hb, rfl, rfl⟩

/-- A list that is built has expressions as its items and takes a cell for each. -/
theorem Effects.list_eq_ok {vs : List Value} {v : Value} {w w' : Effects}
    (h : w.list vs = (.ok v, w')) :
    (∀ u ∈ vs, u.isExpression = true) ∧ v = chain w.nextCell vs ∧
      w' = { w with nextCell := w.nextCell + vs.length } := by
  unfold Effects.list at h
  split at h
  · rename_i hnone
    cases h
    exact ⟨by simpa [List.filter_eq_nil_iff] using hnone, rfl, rfl⟩
  · cases h

theorem Effects.list_of_isExpression {vs : List Value} (h : ∀ v ∈ vs, v.isExpression = true)
    (w : Effects) :
    w.list vs = (.ok (chain w.nextCell vs), { w with nextCell := w.nextCell + vs.length }) := by
  have hnone : vs.filter (fun v => !v.isExpression) = [] := by
    simpa [List.filter_eq_nil_iff] using h
  rw [Effects.list, hnone]

/-- The list that is built of values that are all expressions. -/
theorem Effects.builtFrom_of_list {vs : List Value} {w w' : Effects} {v : Value}
    (h : Effects.list vs w = (.ok v, w')) : BuiltFrom vs v := by
  obtain ⟨he, rfl, -⟩ := list_eq_ok h
  exact .chain (List.Subset.refl vs) he _

/-! ## 2. The shapes of host functions -/

namespace HostFunction

/-- The host function returns only what can be built from its arguments. -/
def Builds (h : HostFunction) : Prop :=
  ∀ (args : List Value) (w w' : Effects) (v : Value), h.run args w = (.ok v, w') →
    BuiltFrom args v

end HostFunction

namespace Host

open HostFunction

theorem unary_builds (name description : String) {f : Value → Except Error Value}
    (hf : ∀ given a v, a ∈ given → f a = .ok v → BuiltFrom given v) :
    (unary name description f).Builds := by
  intro args w w' v h
  cases args with
  | nil => cases h
  | cons a args =>
    have hv : f a = .ok v := congrArg Prod.fst h
    exact hf (a :: args) a v List.mem_cons_self hv

theorem binary_builds (name description : String) {f : Value → Value → Except Error Value}
    (hf : ∀ a b v, f a b = .ok v → v.isPlain = true) : (binary name description f).Builds := by
  intro args w w' v h
  match args, h with
  | [], h => cases h
  | [_], h => cases h
  | a :: b :: args, h =>
    have hv : f a b = .ok v := congrArg Prod.fst h
    exact .plain (hf a b v hv)

theorem numeric_builds (name description : String) {f : Float → Float → Except Error Value}
    (hf : ∀ x y v, f x y = .ok v → v.isPlain = true) : (numeric name description f).Builds := by
  refine binary_builds name description fun a b v h => ?_
  split at h
  · cases h
  · split at h
    · cases h
    · exact hf _ _ v h

theorem test_builds (name description : String) (f : Value → Bool) :
    (test name description f).Builds :=
  unary_builds name description fun given a v _ h => by
    cases h
    exact .plain rfl

theorem question_builds (name description : String) (f : Value → Value → Except Error Bool) :
    (question name description f).Builds := by
  refine binary_builds name description fun a b v h => ?_
  split at h
  · cases h
  · cases h
    rfl

/-! ## 3. The standard host functions -/

theorem divide_builds : divide.Builds := by
  refine numeric_builds _ _ fun x y v h => ?_
  split at h
  · cases h
  · cases h
    rfl

theorem list_builds : list.Builds := fun _ _ _ _ h => Effects.builtFrom_of_list h

theorem first_builds : first.Builds := by
  refine unary_builds _ _ fun given a v ha h => ?_
  split at h
  · cases h
    exact .first (.given ha)
  · cases h

theorem rest_builds : rest.Builds := by
  refine unary_builds _ _ fun given a v ha h => ?_
  split at h
  · cases h
    exact .rest (.given ha)
  · split at h
    · cases h
      exact .given ha
    · cases h

theorem cons_builds : cons.Builds := by
  intro args w w' v h
  match args, h with
  | [], h => cases h
  | [_], h => cases h
  | a :: b :: args, h =>
    obtain ⟨ha, hb, rfl, -⟩ := Effects.cons_eq_ok (show w.cons a b = (.ok v, w') from h)
    exact .pair _ ha hb (.given (by simp)) (.given (by simp))

theorem stringAppend_builds : stringAppend.Builds := by
  intro args w w' v h
  cases h
  exact .plain rfl

theorem stringJoin_builds : stringJoin.Builds := by
  refine binary_builds _ _ fun a b v h => ?_
  split at h
  · split at h
    · cases h
    · cases h
      rfl
  · cases h

theorem display_builds : display.Builds := by
  intro args w w' v h
  cases h
  exact .plain rfl

theorem exit_builds : exit.Builds := by
  refine unary_builds _ _ fun given a v ha h => ?_
  split at h <;> cases h

/-- **The standard host functions return what can be built from their arguments.** -/
theorem builds_of_mem_standard {h : HostFunction} (hh : h ∈ standard) : h.Builds := by
  have harith : ∀ name description (f : Float → Float → Value), (∀ x y, (f x y).isPlain = true) →
      (numeric name description fun x y => .ok (f x y)).Builds := by
    intro name description f hf
    refine numeric_builds name description fun x y v h => ?_
    cases h
    exact hf x y
  simp only [standard, List.mem_cons, List.not_mem_nil, or_false] at hh
  rcases hh with rfl | rfl | rfl | rfl | rfl | rfl | rfl | rfl | rfl | rfl | rfl | rfl | rfl | rfl |
    rfl | rfl | rfl | rfl | rfl | rfl | rfl | rfl | rfl | rfl | rfl
  · exact harith _ _ _ fun _ _ => rfl
  · exact harith _ _ _ fun _ _ => rfl
  · exact harith _ _ _ fun _ _ => rfl
  · exact divide_builds
  · exact harith _ _ _ fun _ _ => rfl
  · exact harith _ _ _ fun _ _ => rfl
  · exact harith _ _ _ fun _ _ => rfl
  · exact harith _ _ _ fun _ _ => rfl
  · exact list_builds
  · exact first_builds
  · exact rest_builds
  · exact cons_builds
  · exact question_builds _ _ _
  · exact question_builds _ _ _
  · exact question_builds _ _ _
  · exact test_builds _ _ _
  · exact test_builds _ _ _
  · exact test_builds _ _ _
  · exact test_builds _ _ _
  · exact test_builds _ _ _
  · exact test_builds _ _ _
  · exact stringAppend_builds
  · exact stringJoin_builds
  · exact display_builds
  · exact exit_builds

end Host

end HostedLisp
