import HostedLisp.Eval
import HostedLisp.Host.Standard
import HostedLisp.Program

/-!
# Sessions

A session is a store that lives on between programs, together with the host functions its values
refer to. Frame 0 is its global frame, which starts out with a binding for every host function of
a registry.

A program is read as a whole before anything of it runs. Its expressions are then taken one after
the other: each gets its cells when its turn comes and is evaluated in the global frame. The value
of the last one is the value of the program.
-/

namespace HostedLisp

/-- The version of the interpreter. -/
def version : String := "1.0.0"

/-- A store between programs. -/
structure Session where
  hosts : Host.Table
  registry : Registry
  store : Store

namespace Session

/-- The global frame of a session. -/
def globalFrame : Nat := 0

/-- The fuel of every evaluation, more than any computation uses up. -/
def fuel : Nat := 2 ^ (62 : Nat)

/-- The references to the host functions of a table from the given place on, by their names. -/
def references : Nat → List HostFunction → List (String × Value)
  | _, [] => []
  | id, f :: fs => (f.name, .hostFunction id f.name) :: references (id + 1) fs

/-- A session whose global frame binds the host functions of the registry. -/
def start (registry : Registry) : Session where
  hosts := registry.functions.toArray
  registry := registry
  store :=
    { frames := #[⟨none, Bindings.setAll [] (references 0 registry.functions)⟩]
      procedures := #[]
      effects := .initial }

/-- A session with the standard host functions. -/
def standard : Session := start .standard

/-! ## 1. What a host does with a session -/

/-- A new reference to a host function. -/
def addHost (s : Session) (f : HostFunction) : Value × Session :=
  (.hostFunction s.hosts.size f.name, { s with hosts := s.hosts.push f })

/-- Binds a name in the global frame. -/
def bind (s : Session) (x : String) (v : Value) : Session :=
  { s with store := s.store.define globalFrame x v }

/-- Binds names in the global frame, one after the other. -/
def bindAll (s : Session) (new : List (String × Value)) : Session :=
  new.foldl (fun s (x, v) => s.bind x v) s

/-- Binds a host function in the global frame under its own name. -/
def bindHost (s : Session) (f : HostFunction) : Session :=
  let (v, s) := s.addHost f
  s.bind f.name v

/-- The displayed text, and the session that has displayed nothing yet. -/
def takeOutput (s : Session) : String × Session :=
  (s.store.effects.output,
    { s with store := s.store.withEffects { s.store.effects with output := "" } })

/-! ## 2. Programs -/

/-- Does something with each element in turn; the last value is the value of the whole, and the
    unspecified value that of nothing. -/
def inTurn {α : Type} (step : α → Store → Eval.Result Value) :
    Value → List α → Store → Eval.Result Value
  | last, [], s => (.value last, s)
  | _, a :: as, s => Eval.andThen (step a s) fun v s => inTurn step v as s

/-- Doing something with two lists in turn is doing it with the first and then, if that came to a
    value, with the second. -/
theorem inTurn_append {α : Type} (step : α → Store → Eval.Result Value) (last : Value)
    (as bs : List α) (s : Store) :
    inTurn step last (as ++ bs) s
      = Eval.andThen (inTurn step last as s) fun v s => inTurn step v bs s := by
  induction as generalizing last s with
  | nil => rfl
  | cons a as ih =>
    simp only [List.cons_append, inTurn]
    rcases step a s with ⟨_ | _ | _, s⟩
    · exact ih _ _
    · rfl
    · rfl

/-- Runs values as a program. -/
def executeIn (hosts : Host.Table) (fuel : Nat) (program : List Value) (s : Store) :
    Eval.Result Value :=
  inTurn (Eval.eval hosts fuel globalFrame) .unspecified program s

/-- Evaluates a datum in the global frame, with new cells for its pairs. -/
def evalDatum (hosts : Host.Table) (fuel : Nat) (e : Datum) (s : Store) : Eval.Result Value :=
  let (v, s) := s.label e
  Eval.eval hosts fuel globalFrame v s

/-- Runs a program that was read. -/
def runIn (hosts : Host.Table) (fuel : Nat) (program : List Datum) (s : Store) :
    Eval.Result Value :=
  inTurn (evalDatum hosts fuel) .unspecified program s

/-- Reads a program and runs it. A text that is no program changes nothing. -/
def runSource (hosts : Host.Table) (fuel : Nat) (source : String) (s : Store) :
    Eval.Result Value :=
  match Program.parse source with
  | .error e => (.failure e, s)
  | .ok program => runIn hosts fuel program s

/-- Keeps the store of a result in the session. -/
def keep (s : Session) (r : Eval.Result Value) : Outcome Value × Session :=
  (r.1, { s with store := r.2 })

/-- Evaluates an expression in a frame. -/
def evaluate (s : Session) (f : Nat) (e : Value) : Outcome Value × Session :=
  s.keep (Eval.eval s.hosts fuel f e s.store)

/-- Runs values as a program. -/
def execute (s : Session) (program : List Value) : Outcome Value × Session :=
  s.keep (executeIn s.hosts fuel program s.store)

/-- Reads a program and runs it. -/
def run (s : Session) (source : String) : Outcome Value × Session :=
  s.keep (runSource s.hosts fuel source s.store)

end Session

end HostedLisp
