import HostedLisp.Proofs.Evaluation.Invariants
import HostedLisp.Proofs.Evaluation.Steps
import HostedLisp.Proofs.Reading.Seams
import Mathlib

/-!
# Well-formed stores

Host functions and the unspecified value are values like others: they are bound, passed and
returned. What they never become is a field of a pair. Pairs come from reading, from lists that make
no call and from the host functions that build some, and all of them refuse such fields; so no list
holds one, at any depth, however long a session lasts. A procedure always has a body to evaluate and
a frame to evaluate it in.

* `Expression.Sound` -- all fields of pairs are expressions and all procedures exist;
* `Store.WellFormed` -- so it is for all that a store holds, and its procedures can be applied;
* `sound_of_parse` -- what is read is sound;
* `soundness_kept` -- being well formed is an invariant of evaluation;
* `stays_wellFormed` -- **no program that a session runs ends in a store that is not well formed**.
-/

namespace HostedLisp

/-! ## 1. Sound expressions -/

namespace Expression

variable {ι : Type}

/-- Both fields of every pair are expressions, and every procedure is one of the first `n`. -/
def Sound (n : Nat) : Expression ι → Prop
  | pair _ first rest =>
    (first.isExpression = true ∧ first.Sound n) ∧ rest.isExpression = true ∧ rest.Sound n
  | procedure id => id < n
  | _ => True

theorem Sound.mono {n m : Nat} (hle : n ≤ m) {e : Expression ι} (h : e.Sound n) :
    e.Sound m := by
  induction e with
  | pair c a b iha ihb => exact ⟨⟨h.1.1, iha h.1.2⟩, h.2.1, ihb h.2.2⟩
  | procedure id => exact Nat.lt_of_lt_of_le h hle
  | _ => trivial

theorem isExpression_label (e : Datum) (next : Nat) :
    (e.label next).1.isExpression = e.isExpression := by
  cases e <;> rfl

/-- Marking pairs with cells keeps an expression sound. -/
theorem Sound.label {n : Nat} {e : Datum} (h : e.Sound n) (next : Nat) :
    (e.label next).1.Sound n := by
  induction e generalizing next with
  | pair c a b iha ihb =>
    refine ⟨⟨?_, iha h.1.2 _⟩, ?_, ihb h.2.2 _⟩
    · rw [isExpression_label]
      exact h.1.1
    · rw [isExpression_label]
      exact h.2.1
  | _ => exact h

/-- A list of sound expressions is one. -/
theorem sound_ofItems {n : Nat} {es : List Datum}
    (h : ∀ e ∈ es, e.isExpression = true ∧ e.Sound n) :
    (ofItems es).isExpression = true ∧ (ofItems es).Sound n := by
  induction es with
  | nil => exact ⟨rfl, trivial⟩
  | cons e es ih =>
    obtain ⟨he, hes⟩ := List.forall_mem_cons.1 h
    exact ⟨rfl, he, ih hes⟩

/-- What can be built from sound values is sound. -/
theorem sound_of_builtFrom {n : Nat} {given : List Value} {v : Value}
    (hgiven : ∀ u ∈ given, u.Sound n) (h : BuiltFrom given v) : v.Sound n := by
  induction h with
  | given hu => exact hgiven _ hu
  | @plain v hplain =>
    cases v with
    | pair | procedure => cases hplain
    | _ => trivial
  | first _ ih => exact ih.1.2
  | rest _ ih => exact ih.2.2
  | pair c ha hb _ _ iha ihb => exact ⟨⟨ha, iha⟩, hb, ihb⟩

end Expression

/-! ## 2. What is read -/

namespace Program

mutual

theorem Tree.sound_datum : ∀ T : Tree, T.datum.isExpression = true ∧ T.datum.Sound 0
  | .atom _ _ h => by cases h <;> exact ⟨rfl, trivial⟩
  | .quote _ _ inner => by
    have hinner := inner.sound_datum
    have hkeyword : (Expression.symbol Keyword.quote.name : Datum).isExpression = true ∧
        (Expression.symbol Keyword.quote.name : Datum).Sound 0 := ⟨rfl, trivial⟩
    exact Expression.sound_ofItems (List.forall_mem_cons.2 ⟨hkeyword,
      List.forall_mem_cons.2 ⟨hinner, nofun⟩⟩)
  | .list _ _ items _ _ => Expression.sound_ofItems items.sound_data

theorem Forest.sound_data : ∀ F : Forest, ∀ e ∈ F.data, e.isExpression = true ∧ e.Sound 0
  | .nil => nofun
  | .cons first rest => List.forall_mem_cons.2 ⟨first.sound_datum, rest.sound_data⟩

end

/-- **What is read is sound**, and refers to no procedure. -/
theorem sound_of_parse {source : String} {program : List Datum}
    (h : parse source = .ok program) : ∀ e ∈ program, e.Sound 0 := by
  obtain ⟨-, -, F, -, -, rfl⟩ := exists_forest_of_parse h
  exact fun e he => (F.sound_data e he).2

end Program

/-! ## 3. Well-formed stores -/

namespace Store

/-- The value is sound, with the procedures that exist. -/
def Sound (s : Store) (v : Value) : Prop := v.Sound s.procedures.size

/-- All that is bound is sound; every procedure has a body, was made in a frame that exists, and
    its parameters and its body are sound. -/
structure WellFormed (s : Store) : Prop where
  bound : ∀ f, ∀ b ∈ s.bindingsOf f, s.Sound b.2
  body : ∀ (id : Nat) (p : Procedure), s.procedures[id]? = some p → p.body ≠ []
  frame : s.Bounded
  parts : ∀ (id : Nat) (p : Procedure), s.procedures[id]? = some p →
    ∀ q ∈ p.parameters ++ p.body, s.Sound q

section WellFormed

variable {s : Store} {f g : Nat} {v : Value}

theorem wellFormed_define (h : s.WellFormed) (hg : g < s.frames.size) (x : String)
    (hv : s.Sound v) : (s.define g x v).WellFormed where
  bound f b hb := by
    rw [define, bindingsOf_modifyBindings s f _ hg] at hb
    split at hb
    · rcases Bindings.mem_set hb with rfl | hb
      · exact hv
      · exact h.bound f b hb
    · exact h.bound f b hb
  body := h.body
  frame id p hp := by
    rw [define, size_modifyBindings]
    exact h.frame id p hp
  parts := h.parts

theorem wellFormed_set (h : s.WellFormed) (f : Nat) (x : String) (hv : s.Sound v) :
    (s.set f x v).WellFormed := by
  rcases set_cases s f x v with he | ⟨g, hg, he⟩
  · rw [he]
    exact h
  · rw [he]
    exact wellFormed_define h (mem_chainFrom (mem_chain_of_target? hg)).1 x hv

theorem wellFormed_newProcedure (h : s.WellFormed) (hf : f < s.frames.size)
    {parameters body : List Value} (hq : ∀ q ∈ parameters ++ body, s.Sound q)
    (hne : body ≠ []) :
    WellFormed { s with procedures := s.procedures.push ⟨parameters, body, f⟩ } := by
  have hmono : ∀ u, s.Sound u →
      Sound { s with procedures := s.procedures.push ⟨parameters, body, f⟩ } u := by
    intro u hu
    refine Expression.Sound.mono ?_ hu
    simp
  refine ⟨fun g b hb => hmono b.2 (h.bound g b hb), fun id p hp => ?_, fun id p hp => ?_,
    fun id p hp => ?_⟩
  all_goals
    rw [Array.getElem?_push] at hp
    split at hp
  · cases hp
    exact hne
  · exact h.body id p hp
  · cases hp
    exact hf
  · exact h.frame id p hp
  · cases hp
    exact fun q hmem => hmono q (hq q hmem)
  · exact fun q hmem => hmono q (h.parts id p hp q hmem)

theorem wellFormed_newFrame (h : s.WellFormed) (parent : Option Nat) {bindings : Bindings}
    (hb : ∀ b ∈ bindings, s.Sound b.2) : (s.newFrame parent bindings).2.WellFormed where
  bound g b hmem := by
    rw [bindingsOf_newFrame] at hmem
    split at hmem
    · exact hb b hmem
    · exact h.bound g b hmem
  body := h.body
  frame id p hp := by
    rw [size_newFrame]
    exact Nat.lt_succ_of_lt (h.frame id p hp)
  parts := h.parts

end WellFormed

end Store

/-! ## 4. The invariant -/

namespace Eval

open Store

/-- Well-formed stores, frames that exist and sound expressions. -/
def soundness : Invariant where
  store := WellFormed
  frame s f := f < s.frames.size
  code := Store.Sound
  value := Store.Sound

theorem soundness_later {s s₁ : Store} (h : s₁.WellFormed)
    (hp : s.procedures.size ≤ s₁.procedures.size) (hf : s.frames.size ≤ s₁.frames.size) :
    soundness.Later s s₁ where
  store := h
  frame _ hg := Nat.lt_of_lt_of_le hg hf
  code _ he := Expression.Sound.mono hp he
  value _ hv := Expression.Sound.mono hp hv

/-- **Whatever evaluation does keeps the store well formed**, if the host functions build from
    their arguments what they return. -/
theorem soundness_kept {hosts : Host.Table} (hhosts : ∀ h ∈ hosts, h.Builds) :
    soundness.Kept hosts where
  parts h := ⟨h.1.2, h.2.2⟩
  data h := h
  built := Expression.sound_of_builtFrom
  host hh hargs hrun := Expression.sound_of_builtFrom hargs (hhosts _ hh _ _ _ _ hrun)
  effects w h := soundness_later ⟨h.bound, h.body, h.frame, h.parts⟩ (Nat.le_refl _) (Nat.le_refl _)
  lookup h _ hget := by
    obtain ⟨g, -, hb⟩ := exists_mem_of_get? hget
    exact h.bound g _ hb
  set {s f v} x h _ hv := by
    have hsize : (s.set f x v).procedures.size = s.procedures.size := by rw [procedures_set]
    exact soundness_later (wellFormed_set h f x hv) (Nat.le_of_eq hsize.symm)
      (Step.set f x v).size_le
  lambda h hf hq hne := by
    refine ⟨soundness_later (wellFormed_newProcedure h hf hq hne) ?_ (Nat.le_refl _), ?_⟩
    · simp
    · simp [soundness, Store.Sound, Expression.Sound]
  enter {s f bindings} h _ hb := by
    have hsize := s.size_newFrame (some f) bindings
    have hle : s.frames.size ≤ (s.newFrame (some f) bindings).2.frames.size := by omega
    refine ⟨soundness_later (wellFormed_newFrame h (some f) hb) (Nat.le_refl _) hle, ?_⟩
    show s.frames.size < _
    omega
  procedure h _ hp :=
    ⟨h.frame _ _ hp, fun q hq => h.parts _ _ hp q (List.mem_append_right _ hq)⟩

end Eval

/-! ## 5. Sessions -/

namespace Registry

theorem mem_register {r : Registry} {f g : HostFunction} (h : g ∈ (r.register f).functions) :
    g = f ∨ g ∈ r.functions := by
  unfold register at h
  split at h
  · obtain ⟨k, hk, rfl⟩ := List.mem_map.1 h
    split
    · exact .inl rfl
    · exact .inr hk
  · rcases List.mem_append.1 h with h | h
    · exact .inr h
    · exact .inl (List.mem_singleton.1 h)

theorem mem_registerAll {r : Registry} {fs : List HostFunction} {g : HostFunction}
    (h : g ∈ (r.registerAll fs).functions) : g ∈ fs ∨ g ∈ r.functions := by
  induction fs generalizing r with
  | nil => exact .inr h
  | cons f fs ih =>
    rcases ih h with h | h
    · exact .inl (List.mem_cons_of_mem f h)
    · rcases mem_register h with rfl | h
      · exact .inl List.mem_cons_self
      · exact .inr h

end Registry

namespace Session

open Eval

theorem mem_standard_of_mem_hosts {h : HostFunction} (hh : h ∈ standard.hosts) :
    h ∈ Host.standard := by
  rcases Registry.mem_registerAll (List.mem_toArray.1 hh) with h | h
  · exact h
  · cases h

theorem sound_of_mem_references {id n : Nat} {fs : List HostFunction} {b : String × Value}
    (h : b ∈ references id fs) : b.2.Sound n := by
  induction fs generalizing id with
  | nil => cases h
  | cons f fs ih =>
    rcases List.mem_cons.1 h with rfl | h
    · trivial
    · exact ih h

/-- A session starts with a store that is well formed. -/
theorem wellFormed_start (registry : Registry) : (start registry).store.WellFormed where
  bound f b hb := by
    match f, hb with
    | 0, hb =>
      rcases Bindings.mem_setAll hb with hb | hb
      · exact sound_of_mem_references hb
      · cases hb
    | f + 1, hb => cases hb
  body id p hp := by cases hp
  frame id p hp := by cases hp
  parts id p hp := by cases hp

/-- The store after programs are run one after the other, whatever each of them comes to. -/
def runEach (hosts : Host.Table) (fuel : Nat) (sources : List String) (s : Store) : Store :=
  sources.foldl (fun s source => (runSource hosts fuel source s).2) s

theorem gives_runSource {hosts : Host.Table} (hhosts : ∀ h ∈ hosts, h ∈ Host.standard)
    (fuel : Nat) (source : String) {s : Store} (hs : s.WellFormed)
    (hf : globalFrame < s.frames.size) :
    soundness.Gives s Store.Sound (runSource hosts fuel source s) := by
  have hkept := soundness_kept fun h hh => Host.builds_of_mem_standard (hhosts h hh)
  refine hkept.runSource fuel hs hf fun program hp e he s next => ?_
  exact Expression.Sound.mono (Nat.zero_le _) ((Program.sound_of_parse hp e he).label next)

/-- One program after the other leaves a store with a global frame, well formed as before. -/
theorem later_runEach {hosts : Host.Table} (hhosts : ∀ h ∈ hosts, h ∈ Host.standard)
    (fuel : Nat) (sources : List String) {s : Store} (hs : s.WellFormed)
    (hf : globalFrame < s.frames.size) : soundness.Later s (runEach hosts fuel sources s) := by
  induction sources generalizing s with
  | nil => exact .refl hs
  | cons source sources ih =>
    have hlater := (gives_runSource hhosts fuel source hs hf).later
    exact hlater.trans (ih hlater.store (hlater.frame _ hf))

/-- **No cons cell ever holds a value that is no expression, and every procedure stays well
    formed.** With the standard host functions,

    * every expression that is read is sound, and refers to no procedure;
    * from a well-formed store and a sound expression, every evaluation, whatever it comes to,
      leaves a well-formed store, and a value it comes to is sound;
    * so it is after any programs that were run one after the other in the global frame, some of
      which may have failed, and for the value of the next one. -/
theorem stays_wellFormed {hosts : Host.Table} (hhosts : ∀ h ∈ hosts, h ∈ Host.standard) :
    (∀ source program, Program.parse source = .ok program → ∀ e ∈ program, e.Sound 0) ∧
    (∀ fuel f e s, s.WellFormed → f < s.frames.size → s.Sound e →
      (eval hosts fuel f e s).2.WellFormed ∧
        ∀ v, (eval hosts fuel f e s).1 = .value v → (eval hosts fuel f e s).2.Sound v) ∧
    ∀ fuel s, s.WellFormed → globalFrame < s.frames.size → ∀ sources source,
      (runEach hosts fuel sources s).WellFormed ∧
        ∀ v s', runSource hosts fuel source (runEach hosts fuel sources s) = (.value v, s') →
          s'.Sound v := by
  refine ⟨fun _ _ => Program.sound_of_parse, fun fuel f e s hs hf he => ?_,
    fun fuel s hs hf sources source => ?_⟩
  · have hkept := soundness_kept fun h hh => Host.builds_of_mem_standard (hhosts h hh)
    obtain ⟨hlater, hvalue⟩ := hkept.eval fuel f e s hs hf he
    exact ⟨hlater.store, hvalue⟩
  · have hlater := later_runEach hhosts fuel sources hs hf
    obtain ⟨-, hvalue⟩ :=
      gives_runSource hhosts fuel source hlater.store (hlater.frame _ hf)
    refine ⟨hlater.store, fun v s' hr => ?_⟩
    rw [hr] at hvalue
    exact hvalue v rfl

/-- In a standard session: a list that asks for a host function among its items, and a procedure
    that refers to itself. -/
theorem stays_wellFormed_standard :
    let s := standard.store
    let e : Value := .pair 0 (.symbol "list") (.pair 1 (.symbol "list") .emptyList)
    (∀ d ∈ [Program.quoted (.symbol "a")], d.Sound 0) ∧
      (eval standard.hosts 3 globalFrame e s).2.WellFormed ∧
      (runEach standard.hosts fuel ["(define p (lambda (x) (cons x p)))", "(cons p (p p))"]
        s).WellFormed := by
  intro s e
  obtain ⟨hread, heval, hrun⟩ := stays_wellFormed fun _ => mem_standard_of_mem_hosts
  have hs : s.WellFormed := wellFormed_start _
  have hf : globalFrame < s.frames.size := Nat.zero_lt_one
  have he : s.Sound e := ⟨⟨rfl, trivial⟩, rfl, ⟨rfl, trivial⟩, rfl, trivial⟩
  have hparse : Program.parse "'a" = .ok [Program.quoted (.symbol "a")] := by cbv
  exact ⟨hread _ _ hparse, (heval 3 globalFrame e s hs hf he).1, (hrun fuel s hs hf _ "").1⟩

end Session

end HostedLisp
