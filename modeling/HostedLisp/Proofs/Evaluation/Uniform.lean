import HostedLisp.Host.Standard
import HostedLisp.Proofs.Evaluation.Renaming
import Mathlib.Logic.Function.Basic

/-!
# Host functions that do not see numbers

A host function gets values, and in them the numbers of procedures. It is uniform if it makes no use
of these numbers but to tell procedures apart: given renumbered arguments it does what it did
before, with the renumbered value.

* `HostFunction.Respects` -- a host function does the same for renumbered arguments;
* `HostFunction.Uniform` -- it does so however the procedures are renumbered, if they stay apart;
* `uniform_of_mem_standard` -- **the standard host functions are uniform**.
-/

namespace HostedLisp

namespace HostFunction

/-- Given renumbered arguments the host function does what it does, with the renumbered value. -/
def Respects (r : Nat → Nat) (h : HostFunction) : Prop :=
  ∀ (args : List Value) (w : Effects),
    h.run (args.map (.rename r)) w = ((h.run args w).1.map (.rename r), (h.run args w).2)

/-- Numbers tell the host function nothing but which procedures are the same. -/
def Uniform (h : HostFunction) : Prop := ∀ r : Nat → Nat, Function.Injective r → h.Respects r

theorem map_rename_id (x : Except Error Value) : x.map (.rename id) = x := by
  cases x with
  | error e => rfl
  | ok v => exact congrArg Except.ok v.rename_id

/-- Every host function does the same for the same arguments. -/
theorem respects_id (h : HostFunction) : h.Respects id := by
  intro args w
  rw [Expression.rename_id_eq, List.map_id, ← Expression.rename_id_eq, map_rename_id]

/-- Also a call with too few arguments fails in the same way. -/
theorem call_rename {r : Nat → Nat} {h : HostFunction} (hr : h.Respects r) (args : List Value)
    (w : Effects) :
    h.call (args.map (.rename r)) w = ((h.call args w).1.map (.rename r), (h.call args w).2) := by
  unfold call
  rw [List.length_map, Expression.map_display_rename]
  split
  · rfl
  · exact hr args w

end HostFunction

/-! ## 1. Equality -/

namespace Expression

variable {r : Nat → Nat}

theorem asNumber_rename (e : Value) : (e.rename r).asNumber = e.asNumber := by
  have hshown := display_rename r e
  cases e with
  | number x => rfl
  | _ => exact congrArg (fun shown => Except.error (Error.typeMismatch "number" shown)) hshown

theorem asText_rename (e : Value) : (e.rename r).asText = e.asText := by
  have hshown := display_rename r e
  cases e with
  | string s => rfl
  | _ => exact congrArg (fun shown => Except.error (Error.typeMismatch "string" shown)) hshown

theorem identical_rename (hr : Function.Injective r) (a b : Value) :
    (a.rename r).identical (b.rename r) = a.identical b := by
  cases a with
  | procedure p =>
    cases b with
    | procedure q =>
      show (r p == r q) = (p == q)
      rw [Bool.eq_iff_iff, beq_iff_eq, beq_iff_eq, hr.eq_iff]
    | _ => rfl
  | _ => cases b <;> rfl

theorem distinguish_rename (hr : Function.Injective r) (a b : Value) :
    distinguish (a.rename r) (b.rename r) = distinguish a b := by
  have hrefused := Effects.filter_refused_rename r [a, b]
  rw [List.map_cons, List.map_cons, List.map_nil] at hrefused
  unfold distinguish
  rw [hrefused, identical_rename hr]
  cases [a, b].filter fun v => !v.isExpression with
  | nil => rfl
  | cons v refused => simp only [List.map_cons, display_rename, map_display_rename]

/-- Equality item by item, by induction on the first value; the second one is looked at only as
    far as the first one is a pair. -/
theorem equivalent_rename (hr : Function.Injective r) (a : Value) :
    (∀ b, equivalent (a.rename r) (b.rename r) = equivalent a b) ∧
      ∀ b, equivalentRest (a.rename r) (b.rename r) = equivalentRest a b := by
  have hatoms := distinguish_rename hr
  induction a with
  | pair c first rest ihFirst ihRest =>
    refine ⟨fun b => ?_, fun b => ?_⟩
    · cases b with
      | pair d first' rest' =>
        rw [rename, rename, equivalent, equivalent, restItems_rename, restItems_rename,
          List.length_map, List.length_map, ihFirst.1, ihRest.2]
      | _ => exact hatoms (.pair c first rest) _
    · cases b with
      | pair d first' rest' =>
        rw [rename, rename, equivalentRest, equivalentRest, ihFirst.1, ihRest.2]
      | _ => exact hatoms first _
  | _ =>
    refine ⟨fun b => ?_, fun b => ?_⟩
    · exact hatoms _ b
    · cases b with
      | pair d first' rest' => exact hatoms _ first'
      | _ => exact hatoms _ _

end Expression

/-! ## 2. The shapes of host functions -/

namespace Host

open HostFunction

variable {r : Nat → Nat} (name description : String)

theorem unary_respects {f : Value → Except Error Value}
    (hf : ∀ a, f (a.rename r) = (f a).map (.rename r)) :
    (unary name description f).Respects r := by
  intro args w
  cases args with
  | nil => rfl
  | cons a args => exact congrArg (·, w) (hf a)

theorem binary_respects {f : Value → Value → Except Error Value}
    (hf : ∀ a b, f (a.rename r) (b.rename r) = (f a b).map (.rename r)) :
    (binary name description f).Respects r := by
  intro args w
  match args with
  | [] | [_] => rfl
  | a :: b :: args => exact congrArg (·, w) (hf a b)

theorem numeric_respects {f : Float → Float → Except Error Value}
    (hf : ∀ x y, f x y = (f x y).map (.rename r)) : (numeric name description f).Respects r := by
  refine binary_respects name description fun a b => ?_
  rw [Expression.asNumber_rename, Expression.asNumber_rename]
  cases a.asNumber with
  | error e => rfl
  | ok x =>
    cases b.asNumber with
    | error e => rfl
    | ok y => exact hf x y

theorem test_respects {f : Value → Bool} (hf : ∀ a, f (a.rename r) = f a) :
    (test name description f).Respects r :=
  unary_respects name description fun a => congrArg (fun b => Except.ok (Expression.boolean b)) (hf a)

theorem question_respects {f : Value → Value → Except Error Bool}
    (hf : ∀ a b, f (a.rename r) (b.rename r) = f a b) :
    (question name description f).Respects r := by
  refine binary_respects name description fun a b => ?_
  rw [hf]
  cases f a b <;> rfl

/-! ## 3. The standard host functions -/

theorem divide_respects : divide.Respects r := by
  refine numeric_respects _ _ fun x y => ?_
  split <;> rfl

theorem first_respects : first.Respects r := by
  refine unary_respects _ _ fun a => ?_
  have hshown := Expression.display_rename r a
  cases a with
  | pair c first rest => rfl
  | _ => exact congrArg (fun shown => Except.error (Error.runtime (.notPair shown))) hshown

theorem rest_respects : rest.Respects r := by
  refine unary_respects _ _ fun a => ?_
  have hshown := Expression.display_rename r a
  cases a with
  | pair c first rest => rfl
  | emptyList | procedure => rfl
  | _ => exact congrArg (fun shown => Except.error (Error.runtime (.notList shown))) hshown

theorem cons_respects : cons.Respects r := by
  intro args w
  match args with
  | [] | [_] => rfl
  | a :: b :: args => exact Effects.cons_rename r a b w

theorem stringAppend_respects : stringAppend.Respects r := by
  intro args w
  simp only [stringAppend, Expression.map_display_rename]
  rfl

theorem stringJoin_respects : stringJoin.Respects r := by
  refine binary_respects _ _ fun a b => ?_
  rw [Expression.isList_rename, Expression.asText_rename, Expression.items_rename,
    Expression.map_display_rename, Expression.display_rename]
  split
  · cases b.asText <;> rfl
  · rfl

theorem display_respects : display.Respects r := by
  intro args w
  simp only [display, Effects.displayLine, Expression.map_display_rename]
  rfl

theorem exit_respects : exit.Respects r := by
  refine unary_respects _ _ fun a => ?_
  rw [Expression.asNumber_rename]
  cases a.asNumber <;> rfl

/-- **The standard host functions are uniform.** -/
theorem uniform_of_mem_standard {h : HostFunction} (hh : h ∈ standard) : h.Uniform := by
  intro r hr
  simp only [standard, List.mem_cons, List.not_mem_nil, or_false] at hh
  rcases hh with rfl | rfl | rfl | rfl | rfl | rfl | rfl | rfl | rfl | rfl | rfl | rfl | rfl | rfl |
    rfl | rfl | rfl | rfl | rfl | rfl | rfl | rfl | rfl | rfl | rfl
  · exact numeric_respects _ _ fun _ _ => rfl
  · exact numeric_respects _ _ fun _ _ => rfl
  · exact numeric_respects _ _ fun _ _ => rfl
  · exact divide_respects
  · exact numeric_respects _ _ fun _ _ => rfl
  · exact numeric_respects _ _ fun _ _ => rfl
  · exact numeric_respects _ _ fun _ _ => rfl
  · exact numeric_respects _ _ fun _ _ => rfl
  · exact fun args w => Effects.list_rename r args w
  · exact first_respects
  · exact rest_respects
  · exact cons_respects
  · exact question_respects _ _ (Expression.distinguish_rename hr)
  · exact question_respects _ _ (Expression.distinguish_rename hr)
  · exact question_respects _ _ fun a => (Expression.equivalent_rename hr a).1
  · exact test_respects _ _ fun a => by cases a <;> rfl
  · exact test_respects _ _ fun a => by cases a <;> rfl
  · exact test_respects _ _ fun a => by cases a <;> rfl
  · exact test_respects _ _ fun a => by cases a <;> rfl
  · exact test_respects _ _ fun a => by cases a <;> rfl
  · exact test_respects _ _ fun a => by cases a <;> rfl
  · exact stringAppend_respects
  · exact stringJoin_respects
  · exact display_respects
  · exact exit_respects

end Host

end HostedLisp
