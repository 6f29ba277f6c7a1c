import HostedLisp.Proofs.Evaluation.Calls
import HostedLisp.Proofs.Evaluation.Code
import HostedLisp.Proofs.Reading.Rereading
import HostedLisp.Proofs.Sessions.WellFormed

/-!
# Data never becomes code

The values of a running program look like the programs that are read: lists of symbols, numbers and
other lists. Still no value is ever evaluated. Whatever a session evaluates stands in one of the
texts that it was given, at the same depth or inside another expression there; procedures only put
off the evaluation of a part of a text. So it does not come to a value in the place of an
expression, unless a host function that was added says so itself.

* `Expression.Contains`, `IsCode` -- the expressions that stand in texts;
* `ordinary_of_parse`, `ordinary_of_mem_standard` -- neither reading a text nor a standard host
  function fails with an illegal expression;
* `Upholds.runSource`, `Upholds.runEach` -- what evaluation keeps, sessions keep;
* `EvaluatedIn` -- the expressions that are evaluated while a program is run;
* `evaluatedIn_isCode` -- **whatever a session evaluates was read**.
-/

namespace HostedLisp

/-! ## 1. Code -/

namespace Expression

variable {ι : Type}

/-- The expression itself and the items of lists in it, at any depth. -/
inductive Contains (e : Expression ι) : Expression ι → Prop where
  | self : Contains e e
  | item {q i : Expression ι} (hq : Contains e q) (hi : i ∈ q.items) : Contains e i

theorem restItems_erase (e : Expression ι) : e.erase.restItems = e.restItems.map erase := by
  induction e with
  | pair c a b _ ihb => rw [erase, restItems, ihb, restItems, List.map_cons]
  | _ => rfl

theorem items_erase (e : Expression ι) : e.erase.items = e.items.map erase := by
  cases e with
  | pair c a b => rw [erase, items, restItems_erase, items, List.map_cons]
  | _ => rfl

theorem isExpression_erase (e : Expression ι) : e.erase.isExpression = e.isExpression := by
  cases e <;> rfl

end Expression

namespace Session

/-- The expression stands in one of the texts, whatever cells it has. -/
def IsCode (texts : List String) (q : Value) : Prop :=
  ∃ text ∈ texts, ∃ program, Program.parse text = .ok program ∧ ∃ e ∈ program, e.Contains q.erase

section IsCode

variable {texts : List String} {q : Value}

/-- What is read is code. -/
theorem isCode_label {text : String} {program : List Datum} {e : Datum} (htext : text ∈ texts)
    (hparse : Program.parse text = .ok program) (he : e ∈ program) (next : Nat) :
    IsCode texts (e.label next).1 := by
  refine ⟨text, htext, program, hparse, e, he, ?_⟩
  rw [Expression.erase_label]
  exact .self

/-- Items of code are code. -/
theorem isCode_items (h : IsCode texts q) : ∀ i ∈ q.items, IsCode texts i := by
  intro i hi
  obtain ⟨text, htext, program, hparse, e, he, hq⟩ := h
  refine ⟨text, htext, program, hparse, e, he, .item hq ?_⟩
  rw [Expression.items_erase]
  exact List.mem_map_of_mem hi

/-- **Code is made of expressions**, since nothing else is read. -/
theorem isExpression_of_isCode (h : IsCode texts q) : q.isExpression = true := by
  obtain ⟨text, -, program, hparse, e, he, hq⟩ := h
  obtain ⟨-, -, F, -, -, rfl⟩ := Program.exists_forest_of_parse hparse
  have hsound : ∀ {d}, e.Contains d → d.isExpression = true ∧ d.Sound 0 := by
    intro d hd
    induction hd with
    | self => exact F.sound_data e he
    | item _ hi ih =>
      exact Expression.forall_items (P := fun d => d.isExpression = true ∧ d.Sound 0)
        (fun h => h.2) ih _ hi
  rw [← q.isExpression_erase]
  exact (hsound hq).1

end IsCode

end Session

/-! ## 2. Failures -/

/-- A text that is no program is unreadable. -/
theorem Program.ordinary_of_parse {source : String} {err : Error}
    (h : parse source = .error err) : err.Ordinary := by
  obtain ⟨p, fault, rfl⟩ := unreadable_of_parse h
  exact rfl

/-- **No standard host function fails with an illegal expression.** -/
theorem Host.ordinary_of_mem_standard {h : HostFunction} (hh : h ∈ standard) {args : List Value}
    {w : Effects} {err : Error} (herr : (h.run args w).1 = .error err) : err.Ordinary := by
  rcases ((orderly_of_mem_standard hh).failure args w err herr).2 with hc | ⟨-, x, rest, -, rfl⟩
  · exact Error.ordinary_of_isComplaint hc
  · exact rfl

/-! ## 3. Runs -/

namespace Eval

variable {J : Store → Prop} {hosts : Host.Table} {s : Store} {texts : List String}

theorem leaves_andThen {code : Value → Prop} {r : Result Value}
    {next : Value → Store → Result Value} (hr : Leaves J hosts code r)
    (hn : ∀ v s, J s → Leaves J hosts code (next v s)) :
    Leaves J hosts code (andThen r next) := by
  obtain ⟨outcome, s₁⟩ := r
  cases outcome with
  | value v => exact hn v s₁ hr.store
  | failure err => exact hr
  | unfinished => exact hr

theorem leaves_inTurn {α : Type} {code : Value → Prop} {step : α → Store → Result Value}
    {as : List α} (hstep : ∀ a ∈ as, ∀ s, J s → Leaves J hosts code (step a s)) (last : Value)
    (hs : J s) : Leaves J hosts code (Session.inTurn step last as s) := by
  induction as generalizing last s with
  | nil => exact ⟨hs, nofun⟩
  | cons a as ih =>
    obtain ⟨ha, has⟩ := List.forall_mem_cons.1 hstep
    exact leaves_andThen (ha s hs) fun v s₁ hs₁ => ih has v hs₁

open Session (IsCode)

/-- Expressions of a text that are evaluated one after the other keep the condition. -/
theorem Upholds.runIn (h : Upholds J (IsCode texts)) (hosts : Host.Table) (fuel : Nat)
    {text : String} {program before : List Datum} (htext : text ∈ texts)
    (hparse : Program.parse text = .ok program) (hbefore : before ⊆ program) (hs : J s) :
    Leaves J hosts (IsCode texts) (Session.runIn hosts fuel before s) := by
  refine leaves_inTurn (fun e he s₁ hs₁ => ?_) _ hs
  exact h.eval hosts fuel _ (h.effects _ hs₁) (Session.isCode_label htext hparse (hbefore he) _)

/-- **Every run of a text keeps the condition**, and its failures can be accounted for. -/
theorem Upholds.runSource (h : Upholds J (IsCode texts)) (hosts : Host.Table) (fuel : Nat)
    {text : String} (htext : text ∈ texts) (hs : J s) :
    Leaves J hosts (IsCode texts) (Session.runSource hosts fuel text s) := by
  unfold Session.runSource
  split
  · rename_i err hparse
    refine ⟨hs, fun err' he => ?_⟩
    cases he
    exact .ordinary (Program.ordinary_of_parse hparse)
  · rename_i program hparse
    exact h.runIn hosts fuel htext hparse (fun _ he => he) hs

/-- **Texts that are run one after the other keep the condition.** -/
theorem Upholds.runEach (h : Upholds J (IsCode texts)) (hosts : Host.Table) (fuel : Nat)
    {sources : List String} (hsources : sources ⊆ texts) (hs : J s) :
    J (Session.runEach hosts fuel sources s) := by
  induction sources generalizing s with
  | nil => exact hs
  | cons source sources ih =>
    obtain ⟨hsource, hsources⟩ := List.cons_subset.1 hsources
    exact ih hsources (h.runSource hosts fuel hsource hs).store

end Eval

namespace Session

open Eval

theorem procedures_bindAll (s : Session) (new : List (String × Value)) :
    (s.bindAll new).store.procedures = s.store.procedures := by
  induction new generalizing s with
  | nil => rfl
  | cons b new ih => exact ih (s.bind b.1 b.2)

/-- A standard session starts without procedures, whatever is bound. -/
theorem written_bindAll (code : Value → Prop) (new : List (String × Value)) :
    Written code (standard.bindAll new).store := by
  intro id p hp
  rw [procedures_bindAll] at hp
  cases hp

/-- The expression `q` is evaluated, in the frame `g` and with the store `t`, while the text is run
    with the store `s`: one of the expressions of the text has its turn, after those before it have
    come to values, and `q` is evaluated while that one is. -/
def EvaluatedIn (hosts : Host.Table) (fuel : Nat) (text : String) (s : Store) (g : Nat)
    (q : Value) (t : Store) : Prop :=
  ∃ before e after v s₁, Program.parse text = .ok (before ++ e :: after) ∧
    runIn hosts fuel before s = (.value v, s₁) ∧
    Evaluated hosts fuel globalFrame (s₁.label e).1 (s₁.label e).2 g q t

/-- **What is evaluated while a text is run is code**, and is evaluated with a store that meets the
    condition. -/
theorem of_evaluatedIn {J : Store → Prop} {texts : List String} (h : Upholds J (IsCode texts))
    {hosts : Host.Table} {fuel : Nat} {text : String} (htext : text ∈ texts) {s : Store} (hs : J s)
    {g : Nat} {q : Value} {t : Store} (hq : EvaluatedIn hosts fuel text s g q t) :
    J t ∧ IsCode texts q := by
  obtain ⟨before, e, after, v, s₁, hparse, hrun, hq⟩ := hq
  have hbefore := h.runIn hosts fuel htext hparse (List.subset_append_left _ _) hs
  rw [hrun] at hbefore
  have he : e ∈ before ++ e :: after := List.mem_append_right _ List.mem_cons_self
  have hcode := isCode_label htext hparse he s₁.effects.nextCell
  exact h.of_evaluated (h.effects _ hbefore.store) hcode hq

/-- **Data never becomes code.** In a standard session, with any further bindings and host
    functions, and after any texts, whatever each of them came to,

    * every expression that is evaluated while the next text is run, at any depth, stands in one
      of the texts;
    * and the run does not fail with an illegal expression, unless a host function that was added
      fails so itself. -/
theorem evaluatedIn_isCode (extra : List HostFunction) (bindings : List (String × Value))
    (fuel fuel' : Nat) (sources : List String) (text : String) :
    let hosts := standard.hosts ++ extra.toArray
    let s := runEach hosts fuel sources (standard.bindAll bindings).store
    (∀ g q t, EvaluatedIn hosts fuel' text s g q t → IsCode (text :: sources) q) ∧
      ∀ shown, (runSource hosts fuel' text s).1 = .failure (.illegalExpression shown) →
        ∃ h ∈ extra, ∃ args w, (h.run args w).1 = .error (.illegalExpression shown) := by
  intro hosts s
  have hkept : Upholds (Written (IsCode (text :: sources))) (IsCode (text :: sources)) :=
    upholds_written isCode_items
  have hs : Written (IsCode (text :: sources)) s :=
    hkept.runEach hosts fuel (List.subset_cons_self _ _) (written_bindAll _ bindings)
  have htext : text ∈ text :: sources := List.mem_cons_self
  refine ⟨fun g q t hq => (of_evaluatedIn hkept htext hs hq).2, fun shown hfailure => ?_⟩
  cases (hkept.runSource hosts fuel' htext hs).failure _ hfailure with
  | ordinary h => cases h
  | illegal hcode he =>
    rw [isExpression_of_isCode hcode] at he
    cases he
  | @host h args w _ hh hr =>
    rcases Array.mem_append.1 hh with hh | hh
    · cases Host.ordinary_of_mem_standard (mem_standard_of_mem_hosts hh) hr
    · exact ⟨h, List.mem_toArray.1 hh, args, w, hr⟩

/-- A procedure that is made and applied at once: its expression is evaluated, and then its body
    is. -/
theorem evaluatedIn_isCode_body :
    let hosts := standard.hosts ++ [].toArray
    let text := "((lambda () #t))"
    let s := (standard.bindAll [("u", .unspecified)]).store
    let made : Value := .pair 1 (.symbol "lambda") (.pair 2 .emptyList (.pair 3 (.boolean true)
      .emptyList))
    ((∃ g t, EvaluatedIn hosts 2 text s g made t) ∧ IsCode [text] made) ∧
      (∃ g t, EvaluatedIn hosts 2 text s g (.boolean true) t) ∧ IsCode [text] (.boolean true) := by
  intro hosts text s made
  have hparse : Program.parse text = .ok [.pair () (.pair () (.symbol "lambda") (.pair ()
      .emptyList (.pair () (.boolean true) .emptyList))) .emptyList] := by cbv
  have hmade : EvaluatedIn hosts 2 text s globalFrame made (s.withEffects ⟨4, ""⟩) :=
    ⟨[], _, [], .unspecified, s, hparse, rfl,
      .nested (asks_operator ⟨0, .emptyList, rfl, rfl, rfl⟩) .self⟩
  have hbody : ∃ t, EvaluatedIn hosts 2 text s 1 (.boolean true) t :=
    ⟨_, [], _, [], .unspecified, s, hparse, rfl, .onward rfl .self⟩
  obtain ⟨t, hbody⟩ := hbody
  have hcode := (evaluatedIn_isCode [] [("u", .unspecified)] 2 2 [] text).1
  exact ⟨⟨⟨_, _, hmade⟩, hcode _ _ _ hmade⟩, ⟨_, _, hbody⟩, hcode _ _ _ hbody⟩

end Session

end HostedLisp
