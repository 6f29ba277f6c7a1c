import HostedLisp.Decimal.Bits
import HostedLisp.Proofs.Values.Cells

/-!
# The comparison of structure and its shortcut

`resembles` takes two pairs with one cell for the same without a look into them. Not-a-number is
the only thing that could tell a pair from itself, so without it the shortcut changes nothing: what
is compared are the values without cells and without the signs of zeros.

* `resemblesPlainly` -- the comparison without the shortcut;
* `hasNaN` -- not-a-number stands somewhere in the value;
* `outline` -- all that the plain comparison looks at (`resemblesPlainly_iff`);
* `Held.resembles_shortcut_sound` -- **the shortcut never changes an answer about values without
  not-a-number**, however their cells are shared, and on them `resembles` is an equivalence.
-/

namespace HostedLisp

namespace Expression

/-! ## 1. The comparison without the shortcut -/

/-- The same structure, every pair being looked into. -/
def resemblesPlainly : Value → Value → Bool
  | number x, number y => x == y
  | string s, string t => s == t
  | boolean a, boolean b => a == b
  | symbol x, symbol y => x == y
  | emptyList, emptyList => true
  | pair _ first rest, pair _ first' rest' =>
    first.resemblesPlainly first' && rest.resemblesPlainly rest'
  | procedure p, procedure q => p == q
  | hostFunction p _, hostFunction q _ => p == q
  | unspecified, unspecified => true
  | _, _ => false

/-- Not-a-number stands somewhere in the expression. -/
def hasNaN {ι : Type} : Expression ι → Bool
  | number x => x.isNaN
  | pair _ first rest => first.hasNaN || rest.hasNaN
  | _ => false

/-- The value without cells, signs of zeros and names of references. -/
def outline : Value → Value
  | number x => number (Double.unsigned x)
  | pair _ first rest => pair 0 first.outline rest.outline
  | hostFunction id _ => hostFunction id ""
  | leaf => leaf

variable {a b : Value}

/-- **The plain comparison is equality of outlines**, and refuses not-a-number. -/
theorem resemblesPlainly_iff :
    a.resemblesPlainly b = true ↔ a.hasNaN = false ∧ a.outline = b.outline := by
  induction a generalizing b with
  | pair c first rest ihFirst ihRest =>
    cases b with
    | pair d first' rest' =>
      simp only [resemblesPlainly, hasNaN, outline, Bool.and_eq_true, Bool.or_eq_false_iff,
        pair.injEq, true_and, ihFirst, ihRest]
      exact and_and_and_comm
    | _ => simp [resemblesPlainly, outline]
  | number x =>
    cases b with
    | number y => simp [resemblesPlainly, hasNaN, outline, Double.beq_iff_unsigned]
    | _ => simp [resemblesPlainly, outline]
  | _ => cases b <;> simp [resemblesPlainly, hasNaN, outline]

/-! ## 2. The shortcut -/

/-- The shortcut refuses nothing that the plain comparison accepts. -/
theorem resembles_of_plainly (h : a.resemblesPlainly b = true) : a.resembles b = true := by
  induction a generalizing b with
  | pair c first rest ihFirst ihRest =>
    cases b with
    | pair d first' rest' =>
      obtain ⟨hfirst, hrest⟩ := Bool.and_eq_true_iff.1 h
      rw [resembles, ihFirst hfirst, ihRest hrest, Bool.and_self, Bool.or_true]
    | _ => cases h
  | _ => cases b <;> exact h

/-- In one memory the shortcut is taken for equal pairs only, and those are told apart by nothing
    but not-a-number. -/
theorem resemblesPlainly_of_resembles {m : Memory} (ha : a.Fits m) (hb : b.Fits m)
    (hnan : a.hasNaN = false) (h : a.resembles b = true) : a.resemblesPlainly b = true := by
  induction a generalizing b with
  | pair c first rest ihFirst ihRest =>
    cases b with
    | pair d first' rest' =>
      obtain hcell | hfields := Bool.or_eq_true_iff.1 h
      · have hsame := ha.eq_of_identical hb rfl hcell
        exact resemblesPlainly_iff.2 ⟨hnan, congrArg outline hsame⟩
      · obtain ⟨hfirst, hrest⟩ := Bool.and_eq_true_iff.1 hfields
        obtain ⟨hnanFirst, hnanRest⟩ := Bool.or_eq_false_iff.1 hnan
        exact Bool.and_eq_true_iff.2 ⟨ihFirst ha.2.1 hb.2.1 hnanFirst hfirst,
          ihRest ha.2.2 hb.2.2 hnanRest hrest⟩
    | _ => cases h
  | _ => cases b <;> exact h

theorem resembles_iff_plainly {m : Memory} (ha : a.Fits m) (hb : b.Fits m)
    (hnan : a.hasNaN = false) : a.resembles b = true ↔ a.resemblesPlainly b = true :=
  ⟨resemblesPlainly_of_resembles ha hb hnan, resembles_of_plainly⟩

/-- So without not-a-number the comparison is equality of outlines. -/
theorem resembles_iff_outline {m : Memory} (ha : a.Fits m) (hb : b.Fits m)
    (hnan : a.hasNaN = false) : a.resembles b = true ↔ a.outline = b.outline := by
  rw [resembles_iff_plainly ha hb hnan, resemblesPlainly_iff]
  exact and_iff_right hnan

end Expression

/-! ## 3. Values at hand -/

/-- **The shortcut of the comparison is sound.** Whatever two values are, if the plain comparison
    accepts them, so does the comparison with the shortcut. And for all values at hand in which
    not-a-number does not occur, however their cells are shared,

    * the two comparisons give the same answer;
    * the comparison with the shortcut is reflexive, symmetric and transitive. -/
theorem Held.resembles_shortcut_sound {w : Effects} {vs : List Value} (h : Held w vs) :
    (∀ a b : Value, a.resemblesPlainly b = true → a.resembles b = true) ∧
    (∀ a ∈ vs, ∀ b ∈ vs, a.hasNaN = false → b.hasNaN = false →
      (a.resembles b = true ↔ a.resemblesPlainly b = true)) ∧
    (∀ a ∈ vs, a.hasNaN = false → a.resembles a = true) ∧
    (∀ a ∈ vs, ∀ b ∈ vs, a.hasNaN = false → b.hasNaN = false →
      a.resembles b = true → b.resembles a = true) ∧
    ∀ a ∈ vs, ∀ b ∈ vs, ∀ c ∈ vs, a.hasNaN = false → b.hasNaN = false → c.hasNaN = false →
      a.resembles b = true → b.resembles c = true → a.resembles c = true := by
  obtain ⟨m, n, hin⟩ := h.exists_memory
  have houtline : ∀ a ∈ vs, ∀ b ∈ vs, a.hasNaN = false →
      (a.resembles b = true ↔ a.outline = b.outline) :=
    fun a ha b hb => Expression.resembles_iff_outline (hin.fits a ha) (hin.fits b hb)
  refine ⟨fun a b => Expression.resembles_of_plainly, fun a ha b hb hnan _ => ?_,
    fun a ha hnan => ?_, fun a ha b hb hna hnb hab => ?_,
    fun a ha b hb c hc hna hnb _ hab hbc => ?_⟩
  · exact Expression.resembles_iff_plainly (hin.fits a ha) (hin.fits b hb) hnan
  · exact (houtline a ha a ha hnan).2 rfl
  · exact (houtline b hb a ha hnb).2 ((houtline a ha b hb hna).1 hab).symm
  · exact (houtline a ha c hc hna).2
      (((houtline a ha b hb hna).1 hab).trans ((houtline b hb c hc hnb).1 hbc))

/-- Two pairs that share the cell of `(1 . 0)`; where one has it a second time, the other has a pair
    of its own, with the other zero. -/
theorem Held.resembles_shortcut_sound_shared :
    let shared : Value := .pair 0 (.number 1.0) (.number 0.0)
    let twice : Value := .pair 1 shared shared
    let once : Value := .pair 3 shared (.pair 2 (.number 1.0) (.number (-0.0)))
    twice.resembles once = true ∧ once.resembles twice = true ∧
      twice.resemblesPlainly once = true ∧ twice ≠ once := by
  intro shared twice once
  let copy : Value := .pair 2 (.number 1.0) (.number (-0.0))
  have hleaves : Held ⟨0, ""⟩ [.number 1.0, .number 0.0, .number (-0.0)] :=
    (((Held.none ⟨0, ""⟩).leaf rfl).leaf rfl).leaf rfl
  have hshared : Held ⟨1, ""⟩ (shared :: [.number 1.0, .number 0.0, .number (-0.0)]) :=
    hleaves.cons (a := .number 1.0) (b := .number 0.0) (by simp) (by simp) rfl
  have htwice := hshared.cons (a := shared) (b := shared) (v := twice) (by simp) (by simp) rfl
  have hcopy := htwice.cons (a := .number 1.0) (b := .number (-0.0)) (v := copy) (by simp) (by simp)
    rfl
  have honce := hcopy.cons (a := shared) (b := copy) (v := once) (by simp) (by simp) rfl
  have hnanTwice : twice.hasNaN = false := by decide
  have hnanOnce : once.hasNaN = false := by decide
  obtain ⟨-, hsame, -, hsymm, -⟩ := honce.resembles_shortcut_sound
  have hresembles : twice.resembles once = true := by decide
  exact ⟨hresembles, hsymm twice (by simp) once (by simp) hnanTwice hnanOnce hresembles,
    (hsame twice (by simp) once (by simp) hnanTwice hnanOnce).1 hresembles, by decide⟩

/-- Not-a-number is left out for a reason: a list of it resembles itself by its cell only. -/
example :
    let a : Value := .pair 0 (.number (0.0 / 0.0)) .emptyList
    a.resembles a = true ∧ a.resemblesPlainly a = false := by
  decide

end HostedLisp
