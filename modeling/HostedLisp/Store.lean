import HostedLisp.Host

/-!
# Frames and procedures

Scopes are frames. A frame binds names directly and has a parent, unless it is a global one;
following parents gives the *chain* of a frame, from the inside out. Everything that a frame sees
is said through its chain:

* `get?` -- the value in the nearest frame that binds the name;
* `set` -- writes to the nearest frame that binds the name, and to the outermost frame if none
  does, so that a new name becomes a global one;
* `define` -- writes to the frame itself.

Frames and procedures are numbered as they are made and stay for good; a procedure keeps the
number of the frame it was made in.
-/

namespace HostedLisp

/-! ## 1. Bindings -/

/-- The names that a frame binds directly, each once. -/
abbrev Bindings := List (String × Value)

namespace Bindings

/-- The value of a name. -/
def get? (x : String) : Bindings → Option Value
  | [] => none
  | (y, v) :: rest => if y = x then some v else get? x rest

/-- Whether a name is bound. -/
def binds (x : String) (b : Bindings) : Bool := (b.get? x).isSome

/-- Binds a name, in place of its old value if it has one. -/
def set (x : String) (v : Value) : Bindings → Bindings
  | [] => [(x, v)]
  | (y, w) :: rest => if y = x then (x, v) :: rest else (y, w) :: set x v rest

/-- Binds names one after the other, so that of equal names the last one counts. -/
def setAll (b : Bindings) (new : List (String × Value)) : Bindings :=
  new.foldl (fun b (x, v) => b.set x v) b

/-- The bound names in order. -/
def names (b : Bindings) : List String := (b.map Prod.fst).mergeSort fun x y => decide (x ≤ y)

theorem get?_set (b : Bindings) (x y : String) (v : Value) :
    (b.set x v).get? y = if x = y then some v else b.get? y := by
  induction b with
  | nil => rfl
  | cons p rest ih =>
    obtain ⟨z, w⟩ := p
    by_cases h : z = x
    · subst h
      by_cases h' : z = y <;> simp [set, get?, h']
    · by_cases h' : z = y
      · subst h'
        have : ¬x = z := fun e => h e.symm
        simp [set, get?, h, this]
      · simp [set, get?, h, h', ih]

end Bindings

/-! ## 2. The store -/

/-- A scope. -/
structure Frame where
  parent : Option Nat
  bindings : Bindings
deriving DecidableEq

/-- What a procedure is: its parameters, the expressions of its body, and the frame it was made
    in. -/
structure Procedure where
  parameters : List Value
  body : List Value
  frame : Nat
deriving DecidableEq

/-- Everything that evaluation changes. -/
structure Store where
  frames : Array Frame
  procedures : Array Procedure
  effects : Effects
deriving DecidableEq

namespace Store

/-- No frames, no procedures. -/
def empty : Store := ⟨#[], #[], .initial⟩

/-- The bindings of one frame. -/
def bindingsOf (s : Store) (f : Nat) : Bindings := (s.frames[f]?.map Frame.bindings).getD []

/-- The parent of a frame. -/
def parent? (s : Store) (f : Nat) : Option Nat := s.frames[f]?.bind Frame.parent

/-- A frame and its ancestors, from the inside out, at most `n` of them. -/
def chainFrom (frames : Array Frame) : Nat → Nat → List Nat
  | 0, _ => []
  | n + 1, f =>
    match frames[f]? with
    | none => []
    | some frame =>
      match frame.parent with
      | none => [f]
      | some p => f :: chainFrom frames n p

/-- A frame and its ancestors, from the inside out. No chain without a cycle is longer than there
    are frames. -/
def chain (s : Store) (f : Nat) : List Nat := chainFrom s.frames s.frames.size f

/-- The nearest frame on the chain that binds the name. -/
def owner? (s : Store) (f : Nat) (x : String) : Option Nat :=
  (s.chain f).find? fun g => (s.bindingsOf g).binds x

/-- The value that a frame sees for a name. -/
def get? (s : Store) (f : Nat) (x : String) : Option Value :=
  (s.chain f).findSome? fun g => (s.bindingsOf g).get? x

/-- Whether a frame sees the name. -/
def has (s : Store) (f : Nat) (x : String) : Bool := (s.owner? f x).isSome

/-- The number of frames on the chain, one for a global frame. -/
def depth (s : Store) (f : Nat) : Nat := (s.chain f).length

/-- Whether a frame has no parent. -/
def isGlobal (s : Store) (f : Nat) : Bool := (s.parent? f).isNone

/-! ## 3. Writing -/

/-- Changes the bindings of one frame. -/
def modifyBindings (s : Store) (f : Nat) (change : Bindings → Bindings) : Store :=
  { s with frames := s.frames.modify f fun frame =>
      { frame with bindings := change frame.bindings } }

/-- Binds a name in the frame itself. -/
def define (s : Store) (f : Nat) (x : String) (v : Value) : Store :=
  s.modifyBindings f (Bindings.set x v)

/-- The frame that `set` writes to. -/
def target? (s : Store) (f : Nat) (x : String) : Option Nat :=
  (s.owner? f x).or (s.chain f).getLast?

/-- Binds a name where it is bound already, and else in the outermost frame. -/
def set (s : Store) (f : Nat) (x : String) (v : Value) : Store :=
  match s.target? f x with
  | some g => s.define g x v
  | none => s

/-- Removes all bindings of a frame. -/
def clear (s : Store) (f : Nat) : Store := s.modifyBindings f fun _ => []

/-- A new frame with the given parent and bindings. -/
def newFrame (s : Store) (parent : Option Nat) (bindings : Bindings) : Nat × Store :=
  (s.frames.size, { s with frames := s.frames.push ⟨parent, bindings⟩ })

/-- Changes the effects only. -/
def withEffects (s : Store) (w : Effects) : Store := { s with effects := w }

/-- Gives cells to the pairs of a datum. -/
def label (s : Store) (e : Datum) : Value × Store :=
  let (v, w) := s.effects.label e
  (v, s.withEffects w)

/-- The inspection text of a frame. -/
def inspectFrame (s : Store) (f : Nat) : String :=
  "Environment \x7b names: [" ++ ", ".intercalate ((s.bindingsOf f).names.map Text.inspect)
    ++ "], depth: " ++ (s.depth f).repr ++ " \x7d"

/-! ## 4. Procedures -/

/-- The procedure that a value refers to. -/
def procedure? (s : Store) : Value → Option Procedure
  | .procedure id => s.procedures[id]?
  | _ => none

/-- The parameters of a procedure by its number. -/
def parametersOf (s : Store) (id : Nat) : List Value :=
  (s.procedures[id]?.map Procedure.parameters).getD []

/-- A new procedure. Its body must not be empty. -/
@[inline] def newProcedure (s : Store) (parameters body : List Value) (frame : Nat) :
    Except Error (Value × Store) :=
  if body.isEmpty then .error (.malformed Keyword.lambda.name .emptyBody)
  else
    .ok (.procedure s.procedures.size,
      { s with procedures := s.procedures.push ⟨parameters, body, frame⟩ })

/-- The names of parameters, which must all be symbols. -/
def parameterNames : List Value → Except Error (List String)
  | [] => .ok []
  | v :: vs =>
    match v.symbolName? with
    | none => .error (.runtime (.parameterNotSymbol v.display))
    | some x =>
      match parameterNames vs with
      | .error e => .error e
      | .ok xs => .ok (x :: xs)

/-- The parameters of a procedure bound to arguments, of which there must be as many. -/
def argumentBindings (parameters args : List Value) : Except Error Bindings :=
  if args.length = parameters.length then
    match parameterNames parameters with
    | .error e => .error e
    | .ok names => .ok (Bindings.setAll [] (names.zip args))
  else .error (.procedureArity parameters.length args.length)

/-- The frame for a call: its parent is the frame the procedure was made in, and it binds the
    parameters to the arguments. -/
@[inline] def bind (s : Store) (p : Procedure) (args : List Value) : Except Error (Nat × Store) :=
  match argumentBindings p.parameters args with
  | .error e => .error e
  | .ok bindings => .ok (s.newFrame (some p.frame) bindings)

end Store

end HostedLisp
