import HostedLisp.Form
import HostedLisp.Store

/-!
# Other numbers for procedures

A procedure is known by its number, and the number means nothing: nothing that evaluation asks of a
value depends on it. So values whose procedures are renumbered are read, shown, bound and put into
lists like the values themselves.

* `Expression.rename` -- the value with its procedures renumbered;
* `Form.read_rename`, `Form.readLocal_rename` -- a renumbered pair reads as the renumbered form;
* `Store.argumentBindings_rename` -- arguments are bound as before;
* `Effects.list_rename` -- and lists are built as before.
-/

namespace HostedLisp

/-! ## 1. Expressions -/

namespace Expression

variable {ι : Type}

/-- The expression with its procedures renumbered. -/
def rename (r : Nat → Nat) : Expression ι → Expression ι
  | pair c first rest => pair c (first.rename r) (rest.rename r)
  | procedure id => procedure (r id)
  | e => e

variable (r : Nat → Nat) (e : Expression ι)

@[simp] theorem rename_id : e.rename id = e := by
  induction e with
  | pair c a b iha ihb => rw [rename, iha, ihb]
  | _ => rfl

@[simp] theorem rename_id_eq : (rename id : Expression ι → Expression ι) = id :=
  funext rename_id

@[simp] theorem isPair_rename : (e.rename r).isPair = e.isPair := by cases e <;> rfl

@[simp] theorem isList_rename : (e.rename r).isList = e.isList := by cases e <;> rfl

@[simp] theorem isExpression_rename : (e.rename r).isExpression = e.isExpression := by
  cases e <;> rfl

@[simp] theorem isTruthy_rename : (e.rename r).isTruthy = e.isTruthy := by cases e <;> rfl

@[simp] theorem symbolName?_rename : (e.rename r).symbolName? = e.symbolName? := by
  cases e <;> rfl

@[simp] theorem keyword?_rename : (e.rename r).keyword? = e.keyword? := by cases e <;> rfl

@[simp] theorem restItems_rename : (e.rename r).restItems = e.restItems.map (rename r) := by
  induction e with
  | pair c a b _ ihb => rw [rename, restItems, restItems, ihb, List.map_cons]
  | _ => rfl

@[simp] theorem items_rename : (e.rename r).items = e.items.map (rename r) := by
  cases e with
  | pair c a b => rw [rename, items, items, restItems_rename, List.map_cons]
  | _ => rfl

/-- All procedures are written alike. -/
theorem writeOnto_rename :
    (∀ k, (e.rename r).writeOnto k = e.writeOnto k) ∧
      ∀ k, (e.rename r).writeRestOnto k = e.writeRestOnto k := by
  induction e with
  | pair c a b iha ihb =>
    refine ⟨fun k => ?_, fun k => ?_⟩
    · rw [rename, writeOnto, writeOnto, iha.1, ihb.2]
    · rw [rename, writeRestOnto, writeRestOnto, iha.1, ihb.2]
  | _ => exact ⟨fun _ => rfl, fun _ => rfl⟩

@[simp] theorem display_rename : (e.rename r).display = e.display := by
  have hwrite : (e.rename r).write = e.write := by rw [write, write, (writeOnto_rename r e).1]
  cases e with
  | string s => rfl
  | _ => exact hwrite

@[simp] theorem map_display_rename (es : List (Expression ι)) :
    (es.map (rename r)).map display = es.map display := by
  rw [List.map_map]
  exact List.map_congr_left fun e _ => display_rename r e

end Expression

open Expression (rename)

/-! ## 2. Forms -/

namespace Form

/-- The form with the procedures of its expressions renumbered. -/
def rename (r : Nat → Nat) : Form → Form
  | .constant e => .constant (e.rename r)
  | .define x e => .define x (e.rename r)
  | .assign x e => .assign x (e.rename r)
  | .lambda parameters body => .lambda (parameters.map (.rename r)) (body.map (.rename r))
  | .branch test consequent alternative =>
    .branch (test.rename r) (consequent.rename r) (alternative.map (.rename r))
  | .sequence body => .sequence (body.map (.rename r))
  | .scope bindings body => .scope (bindings.map (.rename r)) (body.map (.rename r))
  | .application operator operands =>
    .application (operator.rename r) (operands.map (.rename r))

variable (r : Nat → Nat)

theorem readBinding_rename (k : Keyword) (operands : List Value) :
    readBinding k (operands.map (.rename r))
      = (readBinding k operands).map fun p => (p.1, p.2.rename r) := by
  match operands with
  | [] | [_] | _ :: _ :: _ :: _ => simp [readBinding, malformed, Except.map]
  | [target, e] =>
    have hshown := Expression.display_rename r target
    cases target with
    | symbol x =>
      simp only [List.map_cons, List.map_nil, Expression.rename, readBinding]
      split <;> rfl
    | _ => exact congrArg (fun shown => malformed k (.targetNotSymbol shown)) hshown

theorem readSpecial_rename (k : Keyword) (operands : List Value) :
    readSpecial k (operands.map (.rename r)) = (readSpecial k operands).map (rename r) := by
  cases k with
  | quote =>
    match operands with
    | [] | _ :: _ :: _ => simp [readSpecial, malformed, Except.map]
    | [_] => rfl
  | define | assign =>
    simp only [readSpecial, readBinding_rename]
    cases readBinding _ operands <;> rfl
  | lambda =>
    match operands with
    | [] => rfl
    | parameters :: body =>
      simp only [List.map_cons, readSpecial, Expression.isList_rename, Expression.items_rename]
      split <;> rfl
  | branch =>
    match operands with
    | [] | [_] | _ :: _ :: _ :: _ :: _ => simp [readSpecial, malformed, Except.map]
    | [_, _] | [_, _, _] => rfl
  | sequence => rfl
  | scope =>
    match operands with
    | [] | [_] => rfl
    | bindings :: e :: body =>
      simp only [List.map_cons, readSpecial, Expression.isList_rename, Expression.items_rename,
        Expression.display_rename]
      split <;> rfl

/-- **A renumbered pair reads as the renumbered form**, and fails with the same words. -/
theorem read_rename (operator : Value) (operands : List Value) :
    read (operator.rename r) (operands.map (.rename r))
      = (read operator operands).map (rename r) := by
  unfold read
  rw [Expression.keyword?_rename]
  cases operator.keyword? with
  | none => rfl
  | some k => exact readSpecial_rename r k operands

theorem readLocal_rename (binding : Value) :
    readLocal (binding.rename r) = (readLocal binding).map fun p => (p.1, p.2.rename r) := by
  unfold readLocal
  rw [Expression.items_rename, Expression.display_rename]
  match binding.items with
  | [] | [_] | _ :: _ :: _ :: _ => simp [malformed, Except.map]
  | [target, e] =>
    cases target with
    | symbol x =>
      simp only [List.map_cons, List.map_nil, Expression.rename]
      split <;> rfl
    | _ => simp [malformed, Expression.rename, Except.map]

end Form

/-! ## 3. Bindings -/

namespace Bindings

/-- The bindings with the procedures of their values renumbered. -/
def rename (r : Nat → Nat) (b : Bindings) : Bindings := b.map fun p => (p.1, p.2.rename r)

variable (r : Nat → Nat)

@[simp] theorem rename_id (b : Bindings) : b.rename id = b := by
  simp [rename]

@[simp] theorem get?_rename (b : Bindings) (x : String) :
    (b.rename r).get? x = (b.get? x).map (.rename r) := by
  induction b with
  | nil => rfl
  | cons p b ih =>
    obtain ⟨y, v⟩ := p
    show (if y = x then some (v.rename r) else (rename r b).get? x) = _
    rw [get?, ih]
    split <;> rfl

@[simp] theorem binds_rename (b : Bindings) (x : String) : (b.rename r).binds x = b.binds x := by
  rw [binds, binds, get?_rename, Option.isSome_map]

theorem set_rename (b : Bindings) (x : String) (v : Value) :
    (b.set x v).rename r = (b.rename r).set x (v.rename r) := by
  induction b with
  | nil => rfl
  | cons p b ih =>
    obtain ⟨y, w⟩ := p
    show rename r (if y = x then (x, v) :: b else (y, w) :: set x v b)
      = if y = x then (x, v.rename r) :: rename r b
        else (y, w.rename r) :: set x (v.rename r) (rename r b)
    split
    · rfl
    · exact congrArg (_ :: ·) ih

theorem setAll_rename (b : Bindings) (new : List (String × Value)) :
    (b.setAll new).rename r = (b.rename r).setAll (new.map fun p => (p.1, p.2.rename r)) := by
  induction new generalizing b with
  | nil => rfl
  | cons p new ih =>
    obtain ⟨x, v⟩ := p
    show ((b.set x v).setAll new).rename r = ((b.rename r).set x (v.rename r)).setAll _
    rw [ih, set_rename]

end Bindings

namespace Store

variable (r : Nat → Nat)

theorem parameterNames_rename (parameters : List Value) :
    parameterNames (parameters.map (.rename r)) = parameterNames parameters := by
  induction parameters with
  | nil => rfl
  | cons v vs ih =>
    simp only [List.map_cons, parameterNames, Expression.symbolName?_rename,
      Expression.display_rename, ih]

/-- **Renumbered arguments are bound as the arguments are.** -/
theorem argumentBindings_rename (parameters args : List Value) :
    argumentBindings (parameters.map (.rename r)) (args.map (.rename r))
      = (argumentBindings parameters args).map (Bindings.rename r) := by
  unfold argumentBindings
  rw [List.length_map, List.length_map, parameterNames_rename]
  split
  · cases parameterNames parameters with
    | error e => rfl
    | ok names =>
      show Except.ok _ = Except.ok _
      rw [Bindings.setAll_rename, List.zip_map_right]
      rfl
  · rfl

end Store

/-! ## 4. Lists -/

namespace Effects

variable (r : Nat → Nat)

theorem chain_rename (cell : Nat) (vs : List Value) :
    (chain cell vs).rename r = chain cell (vs.map (.rename r)) := by
  induction vs generalizing cell with
  | nil => rfl
  | cons v vs ih => rw [chain, Expression.rename, ih, List.map_cons, chain]

theorem filter_refused_rename (vs : List Value) :
    (vs.map (rename r)).filter (fun v => !v.isExpression)
      = (vs.filter fun v => !v.isExpression).map (rename r) := by
  rw [List.filter_map]
  refine congrArg (List.map _) (List.filter_congr fun v _ => ?_)
  simp

/-- **A list of renumbered values is the renumbered list.** -/
theorem list_rename (vs : List Value) (w : Effects) :
    list (vs.map (.rename r)) w = ((list vs w).1.map (.rename r), (list vs w).2) := by
  unfold list
  rw [filter_refused_rename]
  cases vs.filter fun v => !v.isExpression with
  | nil =>
    simp only [List.map_nil, List.length_map]
    rw [← chain_rename]
    rfl
  | cons v refused =>
    simp only [List.map_cons, Expression.display_rename, Expression.map_display_rename]
    rfl

theorem cons_rename (first rest : Value) (w : Effects) :
    cons (first.rename r) (rest.rename r) w
      = ((cons first rest w).1.map (.rename r), (cons first rest w).2) := by
  unfold cons
  simp only [Expression.isExpression_rename, Expression.display_rename]
  split
  · rfl
  · split <;> rfl

end Effects

end HostedLisp
