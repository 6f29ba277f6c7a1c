import HostedLisp.Eval

/-!
# Complaints

Most errors say that a running program did something wrong: a form is malformed, a name is not
bound, a call has the wrong arguments. The others are of another kind: a text that cannot be read,
a value that is no expression where one is to be evaluated, and the exit of the program.

* `Error.isComplaint` -- the errors of the first kind;
* `Error.isInternal` -- two of them, for which checks made beforehand leave no cause;
* `Error.isRefusal` -- all others of the first kind;
* `Form.isRefusal_of_read`, `Store.isRefusal_of_argumentBindings`, `Effects.isRefusal_of_list`,
  `Eval.isRefusal_of_evalSymbol` -- the checks that evaluation makes by itself fail with nothing
  else.
-/

namespace HostedLisp

/-- Whether the error says that a running program did something wrong. -/
def Error.isComplaint : Error → Bool
  | .unreadable .. | .illegalExpression _ | .exit _ => false
  | _ => true

/-- Whether the error says that a body without expressions was entered, or that a host function
    lacks an argument. -/
def Error.isInternal : Error → Bool
  | .runtime .emptySequence | .runtime .missingArgument => true
  | _ => false

/-- Whether the error is a complaint, and not an internal one. -/
def Error.isRefusal (err : Error) : Bool := err.isComplaint && !err.isInternal

theorem Error.isComplaint_of_isRefusal {err : Error} (h : err.isRefusal = true) :
    err.isComplaint = true :=
  (Bool.and_eq_true_iff.1 h).1

theorem Error.not_isInternal_of_isRefusal {err : Error} (h : err.isRefusal = true) :
    err.isInternal = false :=
  Bool.not_eq_true' _ ▸ (Bool.and_eq_true_iff.1 h).2

theorem Error.kind_of_isComplaint {err : Error} (h : err.isComplaint = true) :
    err.kind = .runtime := by
  cases err <;> first | rfl | cases h

theorem Form.isRefusal_of_readBinding {k : Keyword} {operands : List Value} {err : Error}
    (h : readBinding k operands = .error err) : err.isRefusal = true := by
  unfold readBinding malformed at h
  repeat' split at h
  all_goals cases h
  all_goals rfl

theorem Form.isRefusal_of_read {operator : Value} {operands : List Value} {err : Error}
    (h : read operator operands = .error err) : err.isRefusal = true := by
  unfold read at h
  split at h
  · rename_i k _
    cases k with
    | define | assign =>
      simp only [readSpecial] at h
      split at h
      · rename_i hread
        cases h
        exact isRefusal_of_readBinding hread
      · cases h
    | quote | lambda | branch | sequence | scope =>
      simp only [readSpecial, malformed] at h
      repeat' split at h
      all_goals cases h
      all_goals rfl
  · cases h

theorem Form.isRefusal_of_readLocal {b : Value} {err : Error} (h : readLocal b = .error err) :
    err.isRefusal = true := by
  unfold readLocal malformed at h
  repeat' split at h
  all_goals cases h
  all_goals rfl

theorem Form.isComplaint_of_read {operator : Value} {operands : List Value} {err : Error}
    (h : read operator operands = .error err) : err.isComplaint = true :=
  Error.isComplaint_of_isRefusal (isRefusal_of_read h)

theorem Form.isComplaint_of_readLocal {b : Value} {err : Error} (h : readLocal b = .error err) :
    err.isComplaint = true :=
  Error.isComplaint_of_isRefusal (isRefusal_of_readLocal h)

theorem Store.isRefusal_of_parameterNames {parameters : List Value} {err : Error}
    (h : parameterNames parameters = .error err) : err.isRefusal = true := by
  induction parameters with
  | nil => cases h
  | cons v vs ih =>
    rw [parameterNames] at h
    split at h
    · cases h
      rfl
    · split at h
      · rename_i herr
        cases h
        exact ih herr
      · cases h

theorem Store.isRefusal_of_argumentBindings {parameters args : List Value} {err : Error}
    (h : argumentBindings parameters args = .error err) : err.isRefusal = true := by
  unfold argumentBindings at h
  split at h
  · split at h
    · rename_i herr
      cases h
      exact isRefusal_of_parameterNames herr
    · cases h
  · cases h
    rfl

theorem Store.isComplaint_of_argumentBindings {parameters args : List Value} {err : Error}
    (h : argumentBindings parameters args = .error err) : err.isComplaint = true :=
  Error.isComplaint_of_isRefusal (isRefusal_of_argumentBindings h)

theorem Effects.isRefusal_of_list {vs : List Value} {w : Effects} {err : Error}
    (h : (list vs w).1 = .error err) : err.isRefusal = true := by
  unfold list at h
  split at h
  · cases h
  · cases h
    rfl

theorem Effects.isComplaint_of_list {vs : List Value} {w : Effects} {err : Error}
    (h : (list vs w).1 = .error err) : err.isComplaint = true :=
  Error.isComplaint_of_isRefusal (isRefusal_of_list h)

theorem Eval.isRefusal_of_evalSymbol {s : Store} {f : Nat} {x : String} {err : Error}
    (h : evalSymbol s f x = .error err) : err.isRefusal = true := by
  unfold evalSymbol at h
  repeat' split at h
  all_goals cases h
  all_goals rfl

end HostedLisp
