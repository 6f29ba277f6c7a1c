import HostedLisp.Eval.Fuel
import HostedLisp.Proofs.Reading.Seams
import HostedLisp.Session
import Mathlib

/-!
# Programs in parts

A program that consists of two texts, joined by a line break, does what the two do one after the
other. A run of a program depends on fuel; what it comes to does not (`runSource_of_le`), so this
is said of every amount of fuel and also of runs that end (`Returns`).

* `runSource_append_newline` -- with any amount of fuel, the joined text is run as its two parts;
* `returns_append_newline_iff` -- it ends exactly if the first part fails, or both parts end;
* `run_append_newline` -- **splitting a program between runs of a session changes nothing**.
-/

namespace HostedLisp.Session

open Eval

/-! ## 1. Runs that end -/

/-- With the store `s`, the program comes to `r`, a value or a failure, and leaves the store
    `s'`. -/
def Returns (hosts : Host.Table) (source : String) (s : Store) (r : Except Error Value)
    (s' : Store) : Prop :=
  ∃ fuel, runSource hosts fuel source s = settled s' r

theorem finished_settled {α : Type} (s : Store) (r : Except Error α) : Finished (settled s r) := by
  cases r <;> exact nofun

theorem inTurn_congr {α : Type} {step step' : α → Store → Result Value}
    (hstep : ∀ a s, Finished (step a s) → step' a s = step a s) (last : Value) (as : List α)
    (s : Store) (h : Finished (inTurn step last as s)) :
    inTurn step' last as s = inTurn step last as s := by
  induction as generalizing last s with
  | nil => rfl
  | cons a as ih => exact andThen_congr (hstep a s) (fun v s => ih v s) h

/-- **A program that has ended stays as it is with more fuel.** -/
theorem runSource_of_le {hosts : Host.Table} {fuel fuel' : Nat} {source : String} {s : Store}
    (hle : fuel ≤ fuel') (h : Finished (runSource hosts fuel source s)) :
    runSource hosts fuel' source s = runSource hosts fuel source s := by
  unfold runSource at h ⊢
  split
  · rfl
  · rename_i program hp
    rw [hp] at h
    exact inTurn_congr (fun e s he => eval_of_le hle he) _ _ _ h

theorem Returns.of_le {hosts : Host.Table} {fuel fuel' : Nat} {source : String} {s s' : Store}
    {r : Except Error Value} (hle : fuel ≤ fuel')
    (h : runSource hosts fuel source s = settled s' r) :
    runSource hosts fuel' source s = settled s' r := by
  rw [runSource_of_le hle (by rw [h]; exact finished_settled s' r), h]

/-! ## 2. Two parts -/

/-- What was there before the first expression does not matter. -/
theorem inTurn_of_ne_nil {α : Type} (step : α → Store → Result Value) {as : List α} (h : as ≠ [])
    (last last' : Value) (s : Store) : inTurn step last as s = inTurn step last' as s := by
  cases as with
  | nil => exact absurd rfl h
  | cons a as => rfl

/-- **With any amount of fuel, the joined text is run as its two parts.** -/
theorem runSource_append_newline {a b : String} {as bs : List Datum}
    (ha : Program.parse a = .ok as) (hb : Program.parse b = .ok bs) (hosts : Host.Table)
    (fuel : Nat) (s : Store) :
    runSource hosts fuel (a ++ "\n" ++ b) s
      = andThen (runSource hosts fuel a s) fun _ s => runSource hosts fuel b s := by
  have hne : bs ≠ [] := (Program.exists_forest_of_parse hb).1
  unfold runSource
  rw [Program.parse_append_newline ha hb, ha, hb]
  show inTurn _ _ (as ++ bs) s = andThen (inTurn _ _ as s) _
  rw [inTurn_append]
  refine congrArg _ (funext fun v => funext fun s => ?_)
  exact inTurn_of_ne_nil _ hne v .unspecified s

/-- The joined text ends exactly if its first part fails, or both parts end. -/
theorem returns_append_newline_iff {a b : String} {as bs : List Datum}
    (ha : Program.parse a = .ok as) (hb : Program.parse b = .ok bs) {hosts : Host.Table}
    {s s' : Store} {r : Except Error Value} :
    Returns hosts (a ++ "\n" ++ b) s r s' ↔
      (∃ e, r = .error e ∧ Returns hosts a s (.error e) s') ∨
      ∃ v s₁, Returns hosts a s (.ok v) s₁ ∧ Returns hosts b s₁ r s' := by
  constructor
  · rintro ⟨fuel, h⟩
    rw [runSource_append_newline ha hb] at h
    cases hr : runSource hosts fuel a s with
    | mk outcome s₁ =>
      rw [hr] at h
      cases outcome with
      | value v => exact .inr ⟨v, s₁, ⟨fuel, hr⟩, fuel, h⟩
      | failure e =>
        cases r with
        | ok v => cases h
        | error e' =>
          cases h
          exact .inl ⟨e, rfl, fuel, hr⟩
      | unfinished => cases r <;> cases h
  · rintro (⟨e, rfl, fuel, h⟩ | ⟨v, s₁, ⟨fuel, h⟩, fuel', h'⟩)
    · refine ⟨fuel, ?_⟩
      rw [runSource_append_newline ha hb, h]
      rfl
    · -- both parts end with the greater of the two amounts of fuel
      have hfirst := Returns.of_le (Nat.le_max_left fuel fuel') h
      have hsecond := Returns.of_le (Nat.le_max_right fuel fuel') h'
      refine ⟨max fuel fuel', ?_⟩
      rw [runSource_append_newline ha hb, hfirst]
      exact hsecond

/-- **Splitting a program between runs of a session changes nothing.** Of two texts that can be
    read, joined by a line break,

    * the expressions are those of the first and then those of the second;
    * a run ends, with some outcome and some store, exactly if the first text by itself fails with
      them, or comes to a value and leaves a store with which the second ends with them;
    * a session that runs the joined text does what it does when it runs the second after the
      first, or the first alone if that fails. -/
theorem run_append_newline {a b : String} {as bs : List Datum} (ha : Program.parse a = .ok as)
    (hb : Program.parse b = .ok bs) :
    Program.parse (a ++ "\n" ++ b) = .ok (as ++ bs) ∧
    (∀ hosts s r s', Returns hosts (a ++ "\n" ++ b) s r s' ↔
      (∃ e, r = .error e ∧ Returns hosts a s (.error e) s') ∨
      ∃ v s₁, Returns hosts a s (.ok v) s₁ ∧ Returns hosts b s₁ r s') ∧
    ∀ s : Session, s.run (a ++ "\n" ++ b) =
      match s.run a with
      | (.value _, s₁) => s₁.run b
      | failed => failed := by
  refine ⟨Program.parse_append_newline ha hb,
    fun hosts s r s' => returns_append_newline_iff ha hb, fun s => ?_⟩
  unfold run keep
  rw [runSource_append_newline ha hb]
  rcases runSource s.hosts fuel a s.store with ⟨_ | _ | _, s₁⟩ <;> rfl

/-- A first part that ends in a comment, and a second part that uses what the first defines. -/
theorem run_append_newline_comment :
    Program.parse ("(define x \"a\") ; b" ++ "\n" ++ "x")
        = .ok [.ofItems [.symbol "define", .symbol "x", .string "a"], .symbol "x"] ∧
      ∀ s : Session, s.run ("(define x \"a\") ; b" ++ "\n" ++ "x") =
        match s.run "(define x \"a\") ; b" with
        | (.value _, s₁) => s₁.run "x"
        | failed => failed := by
  have ha : Program.parse "(define x \"a\") ; b"
      = .ok [.ofItems [.symbol "define", .symbol "x", .string "a"]] := by cbv
  have hb : Program.parse "x" = .ok [.symbol "x"] := by cbv
  obtain ⟨hparse, -, hrun⟩ := run_append_newline ha hb
  exact ⟨hparse, hrun⟩

end HostedLisp.Session
