import HostedLisp.Eval

/-!
# The rules of evaluation

The meaning of expressions as a relation, without a loop and without fuel. A configuration is a
store -- the frames, the procedures and the text displayed so far -- with a frame and an
expression; a derivation says what the expression comes to and which store it leaves.

* `Evaluates` -- one rule for each form and for each way in which a form fails;
* `EvaluatesEach`, `EvaluatesLocals` -- operands and the bindings of a `let`, from left to right,
  each once; the first failure is the failure of the whole;
* `EvaluatesBody` -- a sequence of expressions: all but the last are for their effect only;
* `Applies` -- what a callee does with the values of its operands, all of which are there.

A tail position is an ordinary premise here: the branch of a condition, the last expression of a
sequence and of a `let`, and the body of a procedure are derived below the expression they stand
in.
-/

namespace HostedLisp.Eval

/-! ## 1. The shapes of pairs -/

/-- `e` is the special form of the keyword `k` with the given operands. -/
def IsForm (k : Keyword) (operands : List Value) (e : Value) : Prop :=
  ∃ cell rest, e = .pair cell (.symbol k.name) rest ∧ rest.items = operands

/-- `e` is a pair that begins with no keyword: an operator and its operands. -/
def IsCombination (operator : Value) (operands : List Value) (e : Value) : Prop :=
  ∃ cell rest, e = .pair cell operator rest ∧ operator.keyword? = none ∧ rest.items = operands

/-- `e` has itself as its value. -/
def IsConstant : Value → Prop
  | .number _ | .string _ | .boolean _ | .emptyList | .procedure _ => True
  | _ => False

/-- The host function that a value refers to. -/
def hostOf? (hosts : Host.Table) : Value → Option HostFunction
  | .hostFunction id _ => hosts[id]?
  | _ => none

/-! ## 2. The rules -/

mutual

/-- **`Evaluates hosts s f e r s'`**: with the store `s`, the expression `e` comes in the frame `f`
    to `r`, a value or a failure, and leaves the store `s'`. -/
inductive Evaluates (hosts : Host.Table) :
    Store → Nat → Value → Except Error Value → Store → Prop where
  -- expressions that are no pairs
  | constant {s : Store} {f : Nat} {e : Value} (he : IsConstant e) : Evaluates hosts s f e (.ok e) s
  | illegal {s : Store} {f : Nat} {e : Value} (he : e.isExpression = false) :
      Evaluates hosts s f e (.error (.illegalExpression e.display)) s
  | symbol {s : Store} {f : Nat} {x : String} {v : Value} (hk : Keyword.ofName? x = none)
      (hx : s.get? f x = some v) : Evaluates hosts s f (.symbol x) (.ok v) s
  | symbolKeyword {s : Store} {f : Nat} {x : String} {k : Keyword}
      (hk : Keyword.ofName? x = some k) :
      Evaluates hosts s f (.symbol x) (.error (.keywordReference x)) s
  | symbolUndefined {s : Store} {f : Nat} {x : String} (hk : Keyword.ofName? x = none)
      (hx : s.get? f x = none) : Evaluates hosts s f (.symbol x) (.error (.undefinedSymbol x)) s
  -- `quote`
  | quote {s : Store} {f : Nat} {e q : Value} (he : IsForm .quote [q] e) :
      Evaluates hosts s f e (.ok q) s
  | quoteCount {s : Store} {f : Nat} {e : Value} {operands : List Value}
      (he : IsForm .quote operands e) (hn : operands.length ≠ 1) :
      Evaluates hosts s f e
        (.error (.malformed Keyword.quote.name (.operandCount 1 1 operands.length))) s
  -- what `define` and `set!` ask of their operands before anything is evaluated
  | bindingCount {s : Store} {f : Nat} {e : Value} {k : Keyword} {operands : List Value}
      (hk : k = .define ∨ k = .assign) (he : IsForm k operands e) (hn : operands.length ≠ 2) :
      Evaluates hosts s f e (.error (.malformed k.name (.operandCount 2 2 operands.length))) s
  | bindingTarget {s : Store} {f : Nat} {e target q : Value} {k : Keyword}
      (hk : k = .define ∨ k = .assign) (he : IsForm k [target, q] e)
      (ht : target.isSymbol = false) :
      Evaluates hosts s f e (.error (.malformed k.name (.targetNotSymbol target.display))) s
  | bindingKeyword {s : Store} {f : Nat} {e q : Value} {k k' : Keyword} {x : String}
      (hk : k = .define ∨ k = .assign) (he : IsForm k [.symbol x, q] e)
      (hx : Keyword.ofName? x = some k') : Evaluates hosts s f e (.error (.keywordReference x)) s
  -- `define`
  | define {s s₁ : Store} {f : Nat} {e q v : Value} {x : String}
      (he : IsForm .define [.symbol x, q] e) (hx : Keyword.ofName? x = none)
      (hq : Evaluates hosts s f q (.ok v) s₁) :
      Evaluates hosts s f e (.ok .unspecified) (s₁.set f x v)
  | defineFails {s s₁ : Store} {f : Nat} {e q : Value} {x : String} {err : Error}
      (he : IsForm .define [.symbol x, q] e) (hx : Keyword.ofName? x = none)
      (hq : Evaluates hosts s f q (.error err) s₁) : Evaluates hosts s f e (.error err) s₁
  -- `set!`, where the name must be there before its value is evaluated
  | assign {s s₁ : Store} {f : Nat} {e q v : Value} {x : String}
      (he : IsForm .assign [.symbol x, q] e) (hx : Keyword.ofName? x = none)
      (hs : s.has f x = true) (hq : Evaluates hosts s f q (.ok v) s₁) :
      Evaluates hosts s f e (.ok .unspecified) (s₁.set f x v)
  | assignFails {s s₁ : Store} {f : Nat} {e q : Value} {x : String} {err : Error}
      (he : IsForm .assign [.symbol x, q] e) (hx : Keyword.ofName? x = none)
      (hs : s.has f x = true) (hq : Evaluates hosts s f q (.error err) s₁) :
      Evaluates hosts s f e (.error err) s₁
  | assignUndefined {s : Store} {f : Nat} {e q : Value} {x : String}
      (he : IsForm .assign [.symbol x, q] e) (hx : Keyword.ofName? x = none)
      (hs : s.has f x = false) : Evaluates hosts s f e (.error (.undefinedAssignment x)) s
  -- `lambda`
  | lambda {s : Store} {f : Nat} {e parameters b : Value} {body : List Value}
      (he : IsForm .lambda (parameters :: b :: body) e) (hp : parameters.isList = true) :
      Evaluates hosts s f e (.ok (.procedure s.procedures.size))
        { s with procedures := s.procedures.push ⟨parameters.items, b :: body, f⟩ }
  | lambdaMissing {s : Store} {f : Nat} {e : Value} (he : IsForm .lambda [] e) :
      Evaluates hosts s f e (.error (.malformed Keyword.lambda.name .missingParameters)) s
  | lambdaParameters {s : Store} {f : Nat} {e parameters : Value} {body : List Value}
      (he : IsForm .lambda (parameters :: body) e) (hp : parameters.isList = false) :
      Evaluates hosts s f e (.error (.runtime .parametersNotList)) s
  | lambdaEmpty {s : Store} {f : Nat} {e parameters : Value} (he : IsForm .lambda [parameters] e)
      (hp : parameters.isList = true) :
      Evaluates hosts s f e (.error (.malformed Keyword.lambda.name .emptyBody)) s
  -- `if`
  | branchCount {s : Store} {f : Nat} {e : Value} {operands : List Value}
      (he : IsForm .branch operands e) (hn : operands.length ≠ 2 ∧ operands.length ≠ 3) :
      Evaluates hosts s f e
        (.error (.malformed Keyword.branch.name (.operandCount 2 3 operands.length))) s
  | branchFails {s s₁ : Store} {f : Nat} {e test c : Value} {alternative : List Value}
      {err : Error} (he : IsForm .branch (test :: c :: alternative) e)
      (ha : alternative.length ≤ 1) (ht : Evaluates hosts s f test (.error err) s₁) :
      Evaluates hosts s f e (.error err) s₁
  | branchThen {s s₁ s₂ : Store} {f : Nat} {e test c v : Value} {alternative : List Value}
      {r : Except Error Value} (he : IsForm .branch (test :: c :: alternative) e)
      (ha : alternative.length ≤ 1) (ht : Evaluates hosts s f test (.ok v) s₁)
      (hv : v.isTruthy = true) (hc : Evaluates hosts s₁ f c r s₂) : Evaluates hosts s f e r s₂
  | branchElse {s s₁ s₂ : Store} {f : Nat} {e test c a v : Value} {r : Except Error Value}
      (he : IsForm .branch [test, c, a] e) (ht : Evaluates hosts s f test (.ok v) s₁)
      (hv : v.isTruthy = false) (ha : Evaluates hosts s₁ f a r s₂) : Evaluates hosts s f e r s₂
  | branchNone {s s₁ : Store} {f : Nat} {e test c v : Value} (he : IsForm .branch [test, c] e)
      (ht : Evaluates hosts s f test (.ok v) s₁) (hv : v.isTruthy = false) :
      Evaluates hosts s f e (.ok .unspecified) s₁
  -- `begin`
  | sequence {s s₁ : Store} {f : Nat} {e b : Value} {body : List Value} {r : Except Error Value}
      (he : IsForm .sequence (b :: body) e) (hb : EvaluatesBody hosts s f (b :: body) r s₁) :
      Evaluates hosts s f e r s₁
  | sequenceEmpty {s : Store} {f : Nat} {e : Value} (he : IsForm .sequence [] e) :
      Evaluates hosts s f e (.ok .unspecified) s
  -- `let`: the values see the frame outside, the body sees the new one
  | scope {s s₁ s₂ : Store} {f : Nat} {e bindings b : Value} {body : List Value}
      {locals : List (String × Value)} {r : Except Error Value}
      (he : IsForm .scope (bindings :: b :: body) e) (hl : bindings.isList = true)
      (hv : EvaluatesLocals hosts s f bindings.items (.ok locals) s₁)
      (hb : EvaluatesBody hosts (s₁.newFrame (some f) (Bindings.setAll [] locals)).2
        s₁.frames.size (b :: body) r s₂) :
      Evaluates hosts s f e r s₂
  | scopeFails {s s₁ : Store} {f : Nat} {e bindings b : Value} {body : List Value} {err : Error}
      (he : IsForm .scope (bindings :: b :: body) e) (hl : bindings.isList = true)
      (hv : EvaluatesLocals hosts s f bindings.items (.error err) s₁) :
      Evaluates hosts s f e (.error err) s₁
  | scopeMissing {s : Store} {f : Nat} {e : Value} {operands : List Value}
      (he : IsForm .scope operands e) (hn : operands.length < 2) :
      Evaluates hosts s f e (.error (.malformed Keyword.scope.name .missingBindings)) s
  | scopeNotList {s : Store} {f : Nat} {e bindings b : Value} {body : List Value}
      (he : IsForm .scope (bindings :: b :: body) e) (hl : bindings.isList = false) :
      Evaluates hosts s f e
        (.error (.malformed Keyword.scope.name (.bindingsNotList bindings.display))) s
  -- all other pairs: the operator, then the operands, and only then what they are applied to
  | combination {s s₁ s₂ s₃ : Store} {f : Nat} {e operator callee : Value}
      {operands args : List Value} {r : Except Error Value}
      (he : IsCombination operator operands e) (ho : Evaluates hosts s f operator (.ok callee) s₁)
      (ha : EvaluatesEach hosts s₁ f operands (.ok args) s₂)
      (hc : Applies hosts s₂ operator callee args r s₃) : Evaluates hosts s f e r s₃
  | operatorFails {s s₁ : Store} {f : Nat} {e operator : Value} {operands : List Value}
      {err : Error} (he : IsCombination operator operands e)
      (ho : Evaluates hosts s f operator (.error err) s₁) : Evaluates hosts s f e (.error err) s₁
  | operandFails {s s₁ s₂ : Store} {f : Nat} {e operator callee : Value} {operands : List Value}
      {err : Error} (he : IsCombination operator operands e)
      (ho : Evaluates hosts s f operator (.ok callee) s₁)
      (ha : EvaluatesEach hosts s₁ f operands (.error err) s₂) :
      Evaluates hosts s f e (.error err) s₂

/-- The values of expressions, from left to right. -/
inductive EvaluatesEach (hosts : Host.Table) :
    Store → Nat → List Value → Except Error (List Value) → Store → Prop where
  | nil {s : Store} {f : Nat} : EvaluatesEach hosts s f [] (.ok []) s
  | cons {s s₁ s₂ : Store} {f : Nat} {e v : Value} {es vs : List Value}
      (he : Evaluates hosts s f e (.ok v) s₁) (hs : EvaluatesEach hosts s₁ f es (.ok vs) s₂) :
      EvaluatesEach hosts s f (e :: es) (.ok (v :: vs)) s₂
  | headFails {s s₁ : Store} {f : Nat} {e : Value} {es : List Value} {err : Error}
      (he : Evaluates hosts s f e (.error err) s₁) :
      EvaluatesEach hosts s f (e :: es) (.error err) s₁
  | tailFails {s s₁ s₂ : Store} {f : Nat} {e v : Value} {es : List Value} {err : Error}
      (he : Evaluates hosts s f e (.ok v) s₁) (hs : EvaluatesEach hosts s₁ f es (.error err) s₂) :
      EvaluatesEach hosts s f (e :: es) (.error err) s₂

/-- The names and values of the bindings of a `let`, from left to right. A binding is looked at
    when those before it have been evaluated. -/
inductive EvaluatesLocals (hosts : Host.Table) :
    Store → Nat → List Value → Except Error (List (String × Value)) → Store → Prop where
  | nil {s : Store} {f : Nat} : EvaluatesLocals hosts s f [] (.ok []) s
  | cons {s s₁ s₂ : Store} {f : Nat} {b q v : Value} {bs : List Value} {x : String}
      {locals : List (String × Value)} (hb : b.items = [.symbol x, q])
      (hx : Keyword.ofName? x = none) (hq : Evaluates hosts s f q (.ok v) s₁)
      (hs : EvaluatesLocals hosts s₁ f bs (.ok locals) s₂) :
      EvaluatesLocals hosts s f (b :: bs) (.ok ((x, v) :: locals)) s₂
  | badBinding {s : Store} {f : Nat} {b : Value} {bs : List Value}
      (hb : ∀ x q, b.items ≠ [.symbol x, q]) :
      EvaluatesLocals hosts s f (b :: bs)
        (.error (.malformed Keyword.scope.name (.badBinding b.display))) s
  | keyword {s : Store} {f : Nat} {b q : Value} {bs : List Value} {x : String} {k : Keyword}
      (hb : b.items = [.symbol x, q]) (hx : Keyword.ofName? x = some k) :
      EvaluatesLocals hosts s f (b :: bs) (.error (.keywordReference x)) s
  | headFails {s s₁ : Store} {f : Nat} {b q : Value} {bs : List Value} {x : String} {err : Error}
      (hb : b.items = [.symbol x, q]) (hx : Keyword.ofName? x = none)
      (hq : Evaluates hosts s f q (.error err) s₁) :
      EvaluatesLocals hosts s f (b :: bs) (.error err) s₁
  | tailFails {s s₁ s₂ : Store} {f : Nat} {b q v : Value} {bs : List Value} {x : String}
      {err : Error} (hb : b.items = [.symbol x, q]) (hx : Keyword.ofName? x = none)
      (hq : Evaluates hosts s f q (.ok v) s₁)
      (hs : EvaluatesLocals hosts s₁ f bs (.error err) s₂) :
      EvaluatesLocals hosts s f (b :: bs) (.error err) s₂

/-- A sequence of expressions comes to what its last one comes to. -/
inductive EvaluatesBody (hosts : Host.Table) :
    Store → Nat → List Value → Except Error Value → Store → Prop where
  | last {s s₁ : Store} {f : Nat} {e : Value} {r : Except Error Value}
      (he : Evaluates hosts s f e r s₁) : EvaluatesBody hosts s f [e] r s₁
  | cons {s s₁ s₂ : Store} {f : Nat} {e e' v : Value} {es : List Value} {r : Except Error Value}
      (he : Evaluates hosts s f e (.ok v) s₁) (hs : EvaluatesBody hosts s₁ f (e' :: es) r s₂) :
      EvaluatesBody hosts s f (e :: e' :: es) r s₂
  | headFails {s s₁ : Store} {f : Nat} {e e' : Value} {es : List Value} {err : Error}
      (he : Evaluates hosts s f e (.error err) s₁) :
      EvaluatesBody hosts s f (e :: e' :: es) (.error err) s₁
  | empty {s : Store} {f : Nat} : EvaluatesBody hosts s f [] (.error (.runtime .emptySequence)) s

/-- What the value of an operator does with arguments. -/
inductive Applies (hosts : Host.Table) :
    Store → Value → Value → List Value → Except Error Value → Store → Prop where
  -- a host function, through a symbol only; its arity is a lower bound
  | host {s : Store} {operator callee : Value} {args : List Value} {h : HostFunction}
      {r : Except Error Value} {w : Effects} (ho : operator.isSymbol = true)
      (hc : hostOf? hosts callee = some h) (hn : h.arity ≤ args.length)
      (hr : h.run args s.effects = (r, w)) :
      Applies hosts s operator callee args r (s.withEffects w)
  | hostArity {s : Store} {operator callee : Value} {args : List Value} {h : HostFunction}
      (ho : operator.isSymbol = true) (hc : hostOf? hosts callee = some h)
      (hn : args.length < h.arity) :
      Applies hosts s operator callee args
        (.error (.hostArity h.name h.arity (args.map Expression.display))) s
  -- a procedure, wherever it comes from; its arity is exact
  | procedure {s s₁ : Store} {operator callee : Value} {args : List Value} {p : Procedure}
      {names : List String} {r : Except Error Value} (hc : s.procedure? callee = some p)
      (hn : args.length = p.parameters.length) (hp : p.parameters = names.map .symbol)
      (hb : EvaluatesBody hosts
        (s.newFrame (some p.frame) (Bindings.setAll [] (names.zip args))).2 s.frames.size
        p.body r s₁) :
      Applies hosts s operator callee args r s₁
  | procedureArity {s : Store} {operator callee : Value} {args : List Value} {p : Procedure}
      (hc : s.procedure? callee = some p) (hn : args.length ≠ p.parameters.length) :
      Applies hosts s operator callee args
        (.error (.procedureArity p.parameters.length args.length)) s
  | procedureParameter {s : Store} {operator callee q : Value} {args after : List Value}
      {p : Procedure} {names : List String} (hc : s.procedure? callee = some p)
      (hn : args.length = p.parameters.length)
      (hp : p.parameters = names.map .symbol ++ q :: after) (hq : q.isSymbol = false) :
      Applies hosts s operator callee args
        (.error (.runtime (.parameterNotSymbol q.display))) s
  -- everything else is a list of data
  | data {s : Store} {operator callee : Value} {args : List Value} {r : Except Error Value}
      {w : Effects} (hc : s.procedure? callee = none)
      (ho : operator.isSymbol = true → hostOf? hosts callee = none)
      (hl : Effects.list (callee :: args) s.effects = (r, w)) :
      Applies hosts s operator callee args r (s.withEffects w)

end

end HostedLisp.Eval
