import HostedLisp.Host.Standard
import HostedLisp.Proofs.Evaluation.Actions
import HostedLisp.Proofs.Evaluation.Complaints

/-!
# Calls of the standard host functions

The standard host functions do little: most of them only answer, three of them take cells or
display a text. Whatever was displayed before does not matter to them, only `display` adds to it,
and a call that fails has had no effect. It fails because the arguments are refused, or it is a call
of `exit` with a number, whose failure is the exit with the status of that number.

* `HostFunction.Refuses` -- how the function fails, if it has as many arguments as its arity says;
* `Host.refuses_of_mem_standard` -- the standard host functions fail like this;
* `HostFunction.written` -- the texts that a call displays;
* `HostFunction.Orderly` -- all of the above, of one host function;
* `Host.orderly_of_mem_standard` -- **the standard host functions are orderly**.
-/

namespace HostedLisp

namespace HostFunction

/-- The call is one of `exit` with a number, and the error is the exit with its status. -/
def Exits (h : HostFunction) (args : List Value) (err : Error) : Prop :=
  h = Host.exit ∧ ∃ x rest, args = .number x :: rest ∧ err = .exit x.toInt32

/-- Given enough arguments, the function fails because it refuses them, or the call is an exit. -/
def Refuses (h : HostFunction) : Prop :=
  ∀ args w err, h.arity ≤ args.length → (h.run args w).1 = .error err →
    err.isRefusal = true ∨ h.Exits args err

/-- The texts that a call displays: only `display` displays. -/
def written (h : HostFunction) (args : List Value) : List String :=
  if h.name = Host.display.name then [Effects.displayLine args ++ "\n"] else []

/-- What was displayed before a call does not matter and stays, and the call adds to it what it
    writes; a call that fails has no effect, and the arguments are refused or the call is an exit. -/
structure Orderly (h : HostFunction) : Prop where
  display : ∀ text args (w : Effects),
    h.run args (w.view (text ++ ·)) = ((h.run args w).1, (h.run args w).2.view (text ++ ·))
  output : ∀ args w, (h.run args w).2.output = w.output ++ String.join (h.written args)
  failure : ∀ args w err, (h.run args w).1 = .error err →
    (h.run args w).2 = w ∧ (err.isComplaint = true ∨ h.Exits args err)

/-- A function of another name that leaves the displayed text as it is writes nothing. -/
theorem output_of_same {h : HostFunction} (hname : h.name ≠ Host.display.name) {args : List Value}
    {w : Effects} (hsame : (h.run args w).2.output = w.output) :
    (h.run args w).2.output = w.output ++ String.join (h.written args) := by
  rw [hsame, written, if_neg hname]
  exact String.append_empty.symm

/-- A function that only answers is orderly, if its failures are. -/
theorem orderly_of_answers {h : HostFunction} (hname : h.name ≠ Host.display.name)
    (answer : List Value → Except Error Value)
    (hrun : ∀ args w, h.run args w = (answer args, w))
    (hfailure : ∀ args err, answer args = .error err →
      err.isComplaint = true ∨ h.Exits args err) : h.Orderly := by
  constructor
  · intro text args w
    rw [hrun, hrun]
  · intro args w
    exact output_of_same hname (by rw [hrun])
  · intro args w err herr
    rw [hrun] at herr ⊢
    exact ⟨rfl, hfailure args err herr⟩

end HostFunction

/-! ## 1. Answers -/

namespace Expression

theorem isRefusal_of_asNumber {v : Value} {err : Error} (h : v.asNumber = .error err) :
    err.isRefusal = true := by
  unfold asNumber at h
  split at h
  · cases h
  · cases h
    rfl

theorem isRefusal_of_distinguish {a b : Value} {err : Error} (h : distinguish a b = .error err) :
    err.isRefusal = true := by
  unfold distinguish at h
  split at h
  · cases h
  · cases h
    rfl

theorem isRefusal_of_equivalent (a : Value) :
    (∀ b err, a.equivalent b = .error err → err.isRefusal = true) ∧
      ∀ b err, a.equivalentRest b = .error err → err.isRefusal = true := by
  have hatoms : ∀ {a b : Value} {err}, distinguish a b = .error err → err.isRefusal = true :=
    isRefusal_of_distinguish
  induction a with
  | pair c first rest ihFirst ihRest =>
    -- the first items come to an answer, or their failure is the failure of the whole
    refine ⟨fun b err h => ?_, fun b err h => ?_⟩
    · cases b with
      | pair d first' rest' =>
        rw [equivalent] at h
        split at h
        · split at h
          · exact ihRest.2 rest' err h
          · exact ihFirst.1 first' err h
        · cases h
      | _ => exact hatoms h
    · cases b with
      | pair d first' rest' =>
        rw [equivalentRest] at h
        split at h
        · exact ihRest.2 rest' err h
        · exact ihFirst.1 first' err h
      | _ => exact hatoms h
  | _ =>
    refine ⟨fun b err h => hatoms h, fun b err h => ?_⟩
    cases b <;> exact hatoms h

end Expression

/-! ## 2. Shapes -/

namespace Host

section Shapes

variable {name description : String}

theorem isRefusal_of_ok {v : Value} {err : Error} (h : Except.ok v = .error err) :
    err.isRefusal = true := by
  cases h

theorem unary_refuses {f : Value → Except Error Value}
    (hf : ∀ a err, f a = .error err → err.isRefusal = true) :
    (unary name description f).Refuses := by
  rintro (_ | ⟨a, args⟩) w err harity h
  · cases harity
  · exact .inl (hf a err h)

theorem binary_refuses {f : Value → Value → Except Error Value}
    (hf : ∀ a b err, f a b = .error err → err.isRefusal = true) :
    (binary name description f).Refuses := by
  rintro (_ | ⟨a, _ | ⟨b, args⟩⟩) w err harity h
  · cases harity
  · exact absurd harity (by simp [binary])
  · exact .inl (hf a b err h)

theorem numeric_refuses {f : Float → Float → Except Error Value}
    (hf : ∀ x y err, f x y = .error err → err.isRefusal = true) :
    (numeric name description f).Refuses := by
  refine binary_refuses fun a b err h => ?_
  split at h
  · rename_i ha
    cases h
    exact Expression.isRefusal_of_asNumber ha
  · split at h
    · rename_i hb
      cases h
      exact Expression.isRefusal_of_asNumber hb
    · exact hf _ _ err h

theorem question_refuses {f : Value → Value → Except Error Bool}
    (hf : ∀ a b err, f a b = .error err → err.isRefusal = true) :
    (question name description f).Refuses := by
  refine binary_refuses fun a b err h => ?_
  split at h
  · rename_i herr
    cases h
    exact hf a b _ herr
  · cases h

theorem test_refuses {f : Value → Bool} : (test name description f).Refuses :=
  unary_refuses fun _ _ => isRefusal_of_ok

variable (hname : name ≠ display.name)
include hname

/-- A function that lacks an argument complains about that, and else fails as it does. -/
theorem unary_orderly {f : Value → Except Error Value}
    (hrefuses : (unary name description f).Refuses) : (unary name description f).Orderly := by
  refine HostFunction.orderly_of_answers hname
    (fun args => ((unary name description f).run args .initial).1) ?_ ?_
  · rintro (_ | ⟨a, args⟩) w <;> rfl
  · rintro (_ | ⟨a, args⟩) err h
    · cases h
      exact .inl rfl
    · exact (hrefuses _ .initial err (by simp [unary]) h).imp_left Error.isComplaint_of_isRefusal

theorem binary_orderly {f : Value → Value → Except Error Value}
    (hrefuses : (binary name description f).Refuses) : (binary name description f).Orderly := by
  refine HostFunction.orderly_of_answers hname
    (fun args => ((binary name description f).run args .initial).1) ?_ ?_
  · rintro (_ | ⟨a, _ | ⟨b, args⟩⟩) w <;> rfl
  · rintro (_ | ⟨a, _ | ⟨b, args⟩⟩) err h
    · cases h
      exact .inl rfl
    · cases h
      exact .inl rfl
    · exact (hrefuses _ .initial err (by simp [binary]) h).imp_left Error.isComplaint_of_isRefusal

end Shapes

/-! ## 3. How single functions fail -/

theorem divide_refuses : divide.Refuses := by
  refine numeric_refuses fun x y err h => ?_
  split at h <;> cases h
  rfl

theorem list_refuses : list.Refuses := fun _ _ _ _ h => .inl (Effects.isRefusal_of_list h)

theorem first_refuses : first.Refuses := by
  refine unary_refuses fun a err h => ?_
  split at h <;> cases h
  rfl

theorem rest_refuses : rest.Refuses := by
  refine unary_refuses fun a err h => ?_
  split at h
  · cases h
  · split at h <;> cases h
    rfl

theorem cons_refuses : cons.Refuses := by
  rintro (_ | ⟨a, _ | ⟨b, args⟩⟩) w err harity h
  · cases harity
  · exact absurd harity (by simp [cons])
  · simp only [cons, Effects.cons] at h
    repeat' split at h
    all_goals cases h
    all_goals exact .inl rfl

theorem stringAppend_refuses : stringAppend.Refuses :=
  fun _ _ _ _ h => .inl (isRefusal_of_ok h)

theorem stringJoin_refuses : stringJoin.Refuses := by
  refine binary_refuses fun a b err h => ?_
  split at h
  · split at h
    · rename_i htext
      unfold Expression.asText at htext
      split at htext <;> cases htext
      cases h
      rfl
    · cases h
  · cases h
    rfl

theorem display_refuses : display.Refuses := fun _ _ _ _ h => .inl (isRefusal_of_ok h)

theorem exit_refuses : exit.Refuses := by
  rintro (_ | ⟨a, args⟩) w err harity h
  · cases harity
  · cases a with
    | number x =>
      cases h
      exact .inr ⟨rfl, x, args, rfl, rfl⟩
    | _ =>
      cases h
      exact .inl rfl

/-- The standard host functions refuse arguments and exit, and fail in no other way. -/
theorem refuses_of_mem_standard {h : HostFunction} (hh : h ∈ standard) : h.Refuses := by
  simp only [standard, List.mem_cons, List.not_mem_nil, or_false] at hh
  rcases hh with rfl | rfl | rfl | rfl | rfl | rfl | rfl | rfl | rfl | rfl | rfl | rfl | rfl | rfl |
    rfl | rfl | rfl | rfl | rfl | rfl | rfl | rfl | rfl | rfl | rfl
  · exact numeric_refuses fun _ _ _ => isRefusal_of_ok
  · exact numeric_refuses fun _ _ _ => isRefusal_of_ok
  · exact numeric_refuses fun _ _ _ => isRefusal_of_ok
  · exact divide_refuses
  · exact numeric_refuses fun _ _ _ => isRefusal_of_ok
  · exact numeric_refuses fun _ _ _ => isRefusal_of_ok
  · exact numeric_refuses fun _ _ _ => isRefusal_of_ok
  · exact numeric_refuses fun _ _ _ => isRefusal_of_ok
  · exact list_refuses
  · exact first_refuses
  · exact rest_refuses
  · exact cons_refuses
  · exact question_refuses fun _ _ _ => Expression.isRefusal_of_distinguish
  · exact question_refuses fun _ _ _ => Expression.isRefusal_of_distinguish
  · exact question_refuses fun a => (Expression.isRefusal_of_equivalent a).1
  · exact test_refuses
  · exact test_refuses
  · exact test_refuses
  · exact test_refuses
  · exact test_refuses
  · exact test_refuses
  · exact stringAppend_refuses
  · exact stringJoin_refuses
  · exact display_refuses
  · exact exit_refuses

/-! ## 4. Order -/

theorem list_orderly : list.Orderly := by
  refine ⟨fun text args w => Effects.list_view _ args w, fun args w => ?_, fun args w err h => ?_⟩
  · refine HostFunction.output_of_same (by decide) ?_
    simp only [list, Effects.list]
    split <;> rfl
  · simp only [list, Effects.list] at h ⊢
    split at h
    · cases h
    · cases h
      exact ⟨rfl, .inl rfl⟩

theorem cons_orderly : cons.Orderly := by
  constructor
  · rintro text (_ | ⟨a, _ | ⟨b, args⟩⟩) w
    · rfl
    · rfl
    · simp only [cons, Effects.cons]
      split
      · rfl
      · split <;> rfl
  · rintro (_ | ⟨a, _ | ⟨b, args⟩⟩) w
    · exact HostFunction.output_of_same (by decide) rfl
    · exact HostFunction.output_of_same (by decide) rfl
    · refine HostFunction.output_of_same (by decide) ?_
      simp only [cons, Effects.cons]
      split
      · rfl
      · split <;> rfl
  · rintro (_ | ⟨a, _ | ⟨b, args⟩⟩) w err h
    · cases h
      exact ⟨rfl, .inl rfl⟩
    · cases h
      exact ⟨rfl, .inl rfl⟩
    · simp only [cons, Effects.cons] at h ⊢
      repeat' split at h
      all_goals cases h
      all_goals simp_all [Error.isComplaint]

theorem stringAppend_orderly : stringAppend.Orderly :=
  HostFunction.orderly_of_answers (by decide) _ (fun _ _ => rfl) fun _ _ h => by cases h

theorem display_orderly : display.Orderly := by
  refine ⟨fun text args w => ?_, fun args w => ?_, fun args w err h => by cases h⟩
  · simp [display, Effects.display, Effects.view, String.append_assoc]
  · simp [display, Effects.display, HostFunction.written]

/-- The standard host functions have one of two shapes, but for four of them. -/
theorem shape_of_mem_standard {h : HostFunction} (hh : h ∈ standard) :
    (∃ name description f, name ≠ display.name ∧ h = unary name description f) ∨
    (∃ name description f, name ≠ display.name ∧ h = binary name description f) ∨
    h = list ∨ h = cons ∨ h = stringAppend ∨ h = display := by
  simp only [standard, List.mem_cons, List.not_mem_nil, or_false] at hh
  rcases hh with rfl | rfl | rfl | rfl | rfl | rfl | rfl | rfl | rfl | rfl | rfl | rfl | rfl | rfl |
    rfl | rfl | rfl | rfl | rfl | rfl | rfl | rfl | rfl | rfl | rfl
  all_goals first
    | exact .inl ⟨_, _, _, by decide, rfl⟩
    | exact .inr (.inl ⟨_, _, _, by decide, rfl⟩)
    | simp

/-- **The standard host functions are orderly.** -/
theorem orderly_of_mem_standard {h : HostFunction} (hh : h ∈ standard) : h.Orderly := by
  have hrefuses : h.Refuses := refuses_of_mem_standard hh
  rcases shape_of_mem_standard hh with ⟨name, description, f, hname, rfl⟩ |
    ⟨name, description, f, hname, rfl⟩ | rfl | rfl | rfl | rfl
  · exact unary_orderly hname hrefuses
  · exact binary_orderly hname hrefuses
  · exact list_orderly
  · exact cons_orderly
  · exact stringAppend_orderly
  · exact display_orderly

end Host

end HostedLisp
