import HostedLisp.Proofs.Evaluation.Invariants
import HostedLisp.Proofs.Scopes.Shape

/-!
# What evaluation can reach

A frame can be reached from an evaluation if it is the frame of the evaluation, if a procedure that
occurs in the expression was made in it, or if a frame that can be reached leads to it: as its
parent, or through a procedure that occurs in a value bound there. Values move about while a program
runs, but a reference to a frame is not made out of nothing: new frames apart, what can be reached
later could be reached at the start.

* `Captured` -- a procedure that occurs in a value was made in a frame;
* `Reachable` -- the frames that an evaluation can reach;
* `Confined` -- only some old frames and new ones were written to, and nothing leads from these to
  any other frame;
* `confinement_kept` -- that is an invariant of evaluation;
* `eval_reaches` -- **evaluation touches only frames that it can reach**.
-/

namespace HostedLisp

namespace Store

/-! ## 1. Reachable frames -/

/-- A procedure that was made in the frame `f` occurs in the value: as a field of a pair at any
    depth, or in the parameters or the body of a procedure that occurs. -/
inductive Captured (s : Store) (f : Nat) : Value → Prop where
  | procedure {id : Nat} {p : Procedure} (hp : s.procedures[id]? = some p) (hf : p.frame = f) :
      Captured s f (.procedure id)
  | inside {id : Nat} {p : Procedure} {q : Value} (hp : s.procedures[id]? = some p)
      (hq : q ∈ p.parameters ++ p.body) (h : Captured s f q) : Captured s f (.procedure id)
  | first {c : Nat} {a b : Value} (h : Captured s f a) : Captured s f (.pair c a b)
  | rest {c : Nat} {a b : Value} (h : Captured s f b) : Captured s f (.pair c a b)

/-- The frames that can be reached from the frame `f` and the expressions `es`. -/
inductive Reachable (s : Store) (f : Nat) (es : List Value) : Nat → Prop where
  | start : Reachable s f es f
  | captured {e : Value} {g : Nat} (he : e ∈ es) (hc : s.Captured g e) : Reachable s f es g
  | parent {g p : Nat} (hg : Reachable s f es g) (hp : s.parent? g = some p) :
      Reachable s f es p
  | bound {g h : Nat} {b : String × Value} (hg : Reachable s f es g) (hb : b ∈ s.bindingsOf g)
      (hc : s.Captured h b.2) : Reachable s f es h

section Confinement

variable {s₀ s s₁ : Store} {R : Nat → Prop} {f g : Nat} {v : Value}

/-- What occurs in a value is a matter of the procedures only. -/
theorem Captured.of_procedures_eq (hp : s₁.procedures = s.procedures) (h : s₁.Captured g v) :
    s.Captured g v := by
  induction h with
  | procedure hid hf => exact .procedure (hp ▸ hid) hf
  | inside hid hq _ ih => exact .inside (hp ▸ hid) hq ih
  | first _ ih => exact .first ih
  | rest _ ih => exact .rest ih

/-! ## 2. Confinement -/

/-- A frame of `R`, or one that was made since `s₀`. -/
def Live (s₀ : Store) (R : Nat → Prop) (s : Store) (g : Nat) : Prop :=
  R g ∨ (s₀.frames.size ≤ g ∧ g < s.frames.size)

/-- All that the value captures is live. -/
def Inside (s₀ : Store) (R : Nat → Prop) (s : Store) (v : Value) : Prop :=
  ∀ g, s.Captured g v → Live s₀ R s g

/-- Since `s₀` only live frames were written to, and nothing leads from these to other frames. -/
structure Confined (s₀ : Store) (R : Nat → Prop) (s : Store) : Prop where
  size_le : s₀.frames.size ≤ s.frames.size
  same : ∀ g < s₀.frames.size, ¬R g → s.frames[g]? = s₀.frames[g]?
  parent : ∀ g p, Live s₀ R s g → s.parent? g = some p → Live s₀ R s p
  bound : ∀ g, Live s₀ R s g → ∀ b ∈ s.bindingsOf g, Inside s₀ R s b.2

theorem Live.mono (h : Live s₀ R s g) (hle : s.frames.size ≤ s₁.frames.size) :
    Live s₀ R s₁ g :=
  h.imp_right fun hg => ⟨hg.1, Nat.lt_of_lt_of_le hg.2 hle⟩

theorem Inside.mono (h : Inside s₀ R s v) (hp : s₁.procedures = s.procedures)
    (hle : s.frames.size ≤ s₁.frames.size) : Inside s₀ R s₁ v :=
  fun g hg => (h g (hg.of_procedures_eq hp)).mono hle

/-- The frames that can be reached confine everything at the start. -/
theorem confined_reachable (s : Store) (f : Nat) (es : List Value) :
    Confined s (s.Reachable f es) s := by
  have hlive : ∀ g, Live s (s.Reachable f es) s g → s.Reachable f es g := by
    rintro g (hg | ⟨hle, hlt⟩)
    · exact hg
    · exact absurd hlt (Nat.not_lt.2 hle)
  exact
    { size_le := Nat.le_refl _
      same := fun g _ _ => rfl
      parent := fun g p hg hp => .inl (.parent (hlive g hg) hp)
      bound := fun g hg b hb h hc => .inl (.bound (hlive g hg) hb hc) }

/-- What can be reached from where all is live is live. -/
theorem Confined.live_of_reachable (h : Confined s₀ R s) {es : List Value}
    (hf : Live s₀ R s f) (hes : ∀ e ∈ es, Inside s₀ R s e) (hg : s.Reachable f es g) :
    Live s₀ R s g := by
  induction hg with
  | start => exact hf
  | captured he hc => exact hes _ he _ hc
  | parent _ hp ih => exact h.parent _ _ ih hp
  | bound _ hb hc ih => exact h.bound _ ih _ hb _ hc

/-- A chain that starts in a live frame is live. -/
theorem Confined.live_of_mem_chain (h : Confined s₀ R s) (hf : Live s₀ R s f)
    (hg : g ∈ s.chain f) : Live s₀ R s g := by
  have hancestor := (mem_chainFrom hg).2
  clear hg
  rcases hancestor with rfl | hgf
  · exact hf
  · induction hgf with
    | single hp => exact h.parent _ _ hf hp
    | tail _ hp ih => exact ih (h.parent _ _ hf hp)

/-! ## 3. What evaluation does -/

theorem confined_withEffects (h : Confined s₀ R s) (w : Effects) :
    Confined s₀ R (s.withEffects w) where
  size_le := h.size_le
  same := h.same
  parent := h.parent
  bound g hg b hb := (h.bound g hg b hb).mono rfl (Nat.le_refl _)

/-- Writing to a live frame. -/
theorem confined_define (h : Confined s₀ R s) (hg : Live s₀ R s g) (hlt : g < s.frames.size)
    (x : String) (hv : Inside s₀ R s v) : Confined s₀ R (s.define g x v) := by
  have hsize : (s.define g x v).frames.size = s.frames.size := size_modifyBindings s g _
  have hlive : ∀ f, Live s₀ R (s.define g x v) f → Live s₀ R s f :=
    fun f hf => hf.mono (Nat.le_of_eq hsize)
  have hinside : ∀ u, Inside s₀ R s u → Inside s₀ R (s.define g x v) u :=
    fun u hu => hu.mono rfl (Nat.le_of_eq hsize.symm)
  refine ⟨hsize ▸ h.size_le, fun f hf hR => ?_, fun f p hf hp => ?_, fun f hf b hb => ?_⟩
  · have hne : g ≠ f := by
      rintro rfl
      exact hg.elim hR fun hnew => absurd hf (Nat.not_lt.2 hnew.1)
    rw [define, frames_modifyBindings, if_neg hne]
    exact h.same f hf hR
  · rw [define, parent?_modifyBindings] at hp
    exact (h.parent f p (hlive f hf) hp).mono (Nat.le_of_eq hsize.symm)
  · rw [define, bindingsOf_modifyBindings s f _ hlt] at hb
    split at hb
    · rcases Bindings.mem_set hb with rfl | hb
      · exact hinside v hv
      · exact hinside b.2 (h.bound f (hlive f hf) b hb)
    · exact hinside b.2 (h.bound f (hlive f hf) b hb)

theorem confined_set (h : Confined s₀ R s) (hf : Live s₀ R s f) (x : String)
    (hv : Inside s₀ R s v) : Confined s₀ R (s.set f x v) := by
  rcases set_cases s f x v with he | ⟨g, hg, he⟩
  · rw [he]
    exact h
  · rw [he]
    have hmem := mem_chain_of_target? hg
    exact confined_define h (h.live_of_mem_chain hf hmem) (mem_chainFrom hmem).1 x hv

/-- A new procedure captures a live frame and what its parameters and its body capture. It may be
    that a value referred to it before it was made; that value still captures live frames only. -/
theorem inside_newProcedure {parameters body : List Value} (hf : Live s₀ R s f)
    (hq : ∀ q ∈ parameters ++ body, Inside s₀ R s q) (hv : Inside s₀ R s v) :
    Inside s₀ R { s with procedures := s.procedures.push ⟨parameters, body, f⟩ } v := by
  intro g hg
  show Live s₀ R s g
  -- along the way from the value to the frame: where it passes the new procedure it goes on in
  -- what the procedure was made of, and else it was there before
  induction hg with
  | @procedure id p hp hg =>
    rw [Array.getElem?_push] at hp
    split at hp
    · cases hp
      exact hg ▸ hf
    · exact hv g (.procedure hp hg)
  | @inside id p q hp hmem _ ih =>
    rw [Array.getElem?_push] at hp
    split at hp
    · cases hp
      exact ih (hq q hmem)
    · exact ih fun h hh => hv h (.inside hp hmem hh)
  | first _ ih => exact ih fun h hh => hv h (.first hh)
  | rest _ ih => exact ih fun h hh => hv h (.rest hh)

/-- A procedure that does not exist captures nothing. -/
theorem inside_of_procedures_size_le {id : Nat} (h : s.procedures.size ≤ id) :
    Inside s₀ R s (.procedure id) := by
  have hnone : s.procedures[id]? = none := Array.getElem?_eq_none h
  intro g hg
  cases hg with
  | procedure hp _ => cases hnone.symm.trans hp
  | inside hp _ _ => cases hnone.symm.trans hp

/-- A frame inside a live frame. -/
theorem confined_newFrame (h : Confined s₀ R s) (hf : Live s₀ R s f) {bindings : Bindings}
    (hb : ∀ b ∈ bindings, Inside s₀ R s b.2) :
    Confined s₀ R (s.newFrame (some f) bindings).2 := by
  have hsize := s.size_newFrame (some f) bindings
  have hle : s.frames.size ≤ (s.newFrame (some f) bindings).2.frames.size := by omega
  have hlive : ∀ g, Live s₀ R (s.newFrame (some f) bindings).2 g → g ≠ s.frames.size →
      Live s₀ R s g := by
    rintro g (hg | ⟨hg, hlt⟩) hne
    · exact .inl hg
    · exact .inr ⟨hg, by omega⟩
  refine ⟨Nat.le_trans h.size_le hle, fun g hg hR => ?_, fun g p hg hp => ?_,
    fun g hg b hb' => ?_⟩
  · have hne : g ≠ s.frames.size := Nat.ne_of_lt (Nat.lt_of_lt_of_le hg h.size_le)
    rw [frames_newFrame, Array.getElem?_push, if_neg hne]
    exact h.same g hg hR
  · rw [parent?_newFrame] at hp
    split at hp
    · cases hp
      exact hf.mono hle
    · rename_i hne
      exact (h.parent g p (hlive g hg hne) hp).mono hle
  · rw [bindingsOf_newFrame] at hb'
    split at hb'
    · exact (hb b hb').mono rfl hle
    · rename_i hne
      exact (h.bound g (hlive g hg hne) b hb').mono rfl hle

theorem inside_of_builtFrom {given : List Value} (hgiven : ∀ u ∈ given, Inside s₀ R s u)
    (h : BuiltFrom given v) : Inside s₀ R s v := by
  induction h with
  | given hu => exact hgiven _ hu
  | plain hplain =>
    intro g hg
    cases hg <;> cases hplain
  | first _ ih => exact fun g hg => ih g (.first hg)
  | rest _ ih => exact fun g hg => ih g (.rest hg)
  | pair c _ _ _ _ iha ihb =>
    intro g hg
    cases hg with
    | first hg => exact iha g hg
    | rest hg => exact ihb g hg

/-- A frame sees what it saw if no frame on its chain has changed. -/
theorem get?_of_chain_unchanged (hs : s.Linked) (hs₁ : s₁.Linked) (hf : f < s.frames.size)
    (h : ∀ g ∈ s.chain f, s₁.frames[g]? = s.frames[g]?) (x : String) :
    s₁.get? f x = s.get? f x := by
  induction f using (wellFounded_isParent hs.acyclic).induction with
  | _ f ih =>
    have hframe : s₁.frames[f]? = s.frames[f]? := by
      refine h f ?_
      cases hp : s.parent? f with
      | none => simp [chain_of_global hf hp]
      | some p => simp [chain_of_parent hs.acyclic hp]
    have hparent : s₁.parent? f = s.parent? f := by rw [parent?, parent?, hframe]
    have hbindings : s₁.bindingsOf f = s.bindingsOf f := by rw [bindingsOf, bindingsOf, hframe]
    have hf₁ : f < s₁.frames.size := by
      have hsome : s₁.frames[f]? = some s.frames[f] := by rw [hframe, Array.getElem?_eq_getElem hf]
      exact (Array.getElem?_eq_some_iff.1 hsome).1
    rw [hs₁.walks.get f hf₁ x, hs.walks.get f hf x, hparent, hbindings]
    cases hp : s.parent? f with
    | none => rfl
    | some p =>
      have hchain : ∀ g ∈ s.chain p, s₁.frames[g]? = s.frames[g]? := fun g hg =>
        h g (by rw [chain_of_parent hs.acyclic hp]; exact List.mem_cons_of_mem f hg)
      rw [Option.bind_some, Option.bind_some, ih p hp (hs.parent_lt f p hp) hchain]

end Confinement

end Store

namespace Eval

open Store

/-! ## 4. The invariant -/

/-- Evaluation in live frames, of expressions that capture live frames only. -/
def confinement (s₀ : Store) (R : Nat → Prop) : Invariant where
  store := Confined s₀ R
  frame := Live s₀ R
  code := Inside s₀ R
  value := Inside s₀ R

theorem confinement_later {s₀ s s₁ : Store} {R : Nat → Prop} (h : Confined s₀ R s₁)
    (hp : s₁.procedures = s.procedures) (hle : s.frames.size ≤ s₁.frames.size) :
    (confinement s₀ R).Later s s₁ where
  store := h
  frame _ hf := hf.mono hle
  code _ he := Inside.mono he hp hle
  value _ hv := Inside.mono hv hp hle

/-- **Whatever evaluation does stays inside**, if the host functions make up no references. -/
theorem confinement_kept {hosts : Host.Table} (hhosts : ∀ h ∈ hosts, h.Builds) (s₀ : Store)
    (R : Nat → Prop) : (confinement s₀ R).Kept hosts where
  parts h := ⟨fun g hg => h g (.first hg), fun g hg => h g (.rest hg)⟩
  data h := h
  built := inside_of_builtFrom
  host hh hargs hrun := inside_of_builtFrom hargs (hhosts _ hh _ _ _ _ hrun)
  effects w h := confinement_later (confined_withEffects h w) rfl (Nat.le_refl _)
  lookup h hf hget := by
    obtain ⟨g, hg, hb⟩ := exists_mem_of_get? hget
    exact h.bound g (h.live_of_mem_chain hf hg) _ hb
  set {s f v} x h hf hv :=
    confinement_later (confined_set h hf x hv) (procedures_set s f x v) (Step.set f x v).size_le
  lambda {s f parameters body} h hf hq _ := by
    have hinside : ∀ v, Inside s₀ R s v →
        Inside s₀ R { s with procedures := s.procedures.push ⟨parameters, body, f⟩ } v :=
      fun v hv => inside_newProcedure hf hq hv
    refine ⟨⟨⟨h.size_le, h.same, h.parent, fun g hg b hb => hinside b.2 (h.bound g hg b hb)⟩,
      fun _ hg => hg, hinside, hinside⟩, ?_⟩
    exact hinside _ (inside_of_procedures_size_le (Nat.le_refl _))
  enter {s f bindings} h hf hb := by
    have hsize := s.size_newFrame (some f) bindings
    have hle : s.frames.size ≤ (s.newFrame (some f) bindings).2.frames.size := by omega
    refine ⟨confinement_later (confined_newFrame h hf hb) rfl hle, .inr ⟨h.size_le, ?_⟩⟩
    rw [hsize]
    exact Nat.lt_succ_self _
  procedure h hv hp :=
    ⟨hv _ (.procedure hp rfl), fun q hq g hg =>
      hv g (.inside hp (List.mem_append_right _ hq) hg)⟩

/-! ## 5. Evaluation -/

/-- **Evaluation touches only frames that it can reach.** Whatever is evaluated with the standard
    host functions, and whatever it comes to,

    * a frame that could not be reached is as it was;
    * what can be reached afterwards, from the frame of the evaluation and from the value, could
      be reached before or was made during the evaluation;
    * so a frame whose chain could not be reached sees what it saw. -/
theorem eval_reaches {hosts : Host.Table} (hhosts : ∀ h ∈ hosts, h ∈ Host.standard)
    (fuel f : Nat) (e : Value) (s : Store) :
    (∀ g < s.frames.size, ¬s.Reachable f [e] g →
      (eval hosts fuel f e s).2.frames[g]? = s.frames[g]?) ∧
    (∀ vs, (∀ v ∈ vs, (eval hosts fuel f e s).1 = .value v) →
      ∀ g, (eval hosts fuel f e s).2.Reachable f vs g → s.Reachable f [e] g ∨
        (s.frames.size ≤ g ∧ g < (eval hosts fuel f e s).2.frames.size)) ∧
    (s.Linked → f < s.frames.size → ∀ f' < s.frames.size,
      (∀ g ∈ s.chain f', ¬s.Reachable f [e] g) →
      ∀ x, (eval hosts fuel f e s).2.get? f' x = s.get? f' x) := by
  have hkept := confinement_kept (fun h hh => Host.builds_of_mem_standard (hhosts h hh)) s
    (s.Reachable f [e])
  have hcode : Inside s (s.Reachable f [e]) s e := fun g hg =>
    .inl (.captured List.mem_cons_self hg)
  obtain ⟨hlater, hvalue⟩ :=
    hkept.eval fuel f e s (confined_reachable s f [e]) (.inl .start) hcode
  have hconfined : Confined s (s.Reachable f [e]) (eval hosts fuel f e s).2 := hlater.store
  refine ⟨hconfined.same, fun vs hvs g hg => ?_, fun hs hf f' hf' hchain x => ?_⟩
  · exact hconfined.live_of_reachable (.inl .start) (fun v hv => hvalue v (hvs v hv)) hg
  · have hrun : Run s (eval hosts fuel f e s).2 := run_eval hosts fuel f e s ⟨hs.bounded, hf⟩
    exact get?_of_chain_unchanged hs (hrun.keeps hs).2 hf'
      (fun g hg => hconfined.same g (mem_chainFrom hg).1 (hchain g hg)) x

/-- Two global frames, with a procedure in the second one that reads its name: what is set in the
    first one is not seen there. -/
theorem eval_reaches_separate :
    let s : Store := ⟨#[⟨none, [("n", .boolean false)]⟩,
      ⟨none, [("n", .boolean false), ("p", .procedure 0)]⟩], #[⟨[], [.symbol "n"], 1⟩], .initial⟩
    let e : Value := .pair 0 (.symbol "set!") (.pair 1 (.symbol "n") (.pair 2 (.boolean true)
      .emptyList))
    (eval Host.standard.toArray 2 0 e s).2.frames[1]? = s.frames[1]? ∧
      (∀ g, (eval Host.standard.toArray 2 0 e s).2.Reachable 0 [.unspecified] g →
        g = 0 ∨ 2 ≤ g) ∧
      (eval Host.standard.toArray 2 0 e s).2.get? 0 "n" = some (.boolean true) ∧
      (eval Host.standard.toArray 2 0 e s).2.get? 1 "n" = some (.boolean false) := by
  intro s e
  have hreach : ∀ g, s.Reachable 0 [e] g → g = 0 := by
    intro g hg
    induction hg with
    | start => rfl
    | captured he hc =>
      rw [List.mem_singleton.1 he] at hc
      unfold e at hc
      rcases hc with _ | _ | h | (_ | _ | h | (_ | _ | h | h)) <;> cases h
    | parent _ hp ih =>
      subst ih
      cases hp
    | bound _ hb hc ih =>
      subst ih
      rw [List.mem_singleton.1 hb] at hc
      cases hc
  have hparent : ∀ g, s.parent? g = none := by
    intro g
    match g with
    | 0 => rfl
    | 1 => rfl
    | g + 2 => rfl
  have hs : s.Linked := by
    refine ⟨fun id p h => ?_, fun g p h => ?_, acyclic_of_rank id fun g p h => ?_⟩
    · match id with
      | 0 => cases h; decide
      | id + 1 => cases h
    · cases (hparent g).symm.trans h
    · cases (hparent g).symm.trans h
  have hhosts : ∀ h ∈ Host.standard.toArray, h ∈ Host.standard := fun h hh =>
    List.mem_toArray.1 hh
  have hone : ¬s.Reachable 0 [e] 1 := fun h => nomatch hreach 1 h
  obtain ⟨hsame, hafter, hsees⟩ := eval_reaches hhosts 2 0 e s
  refine ⟨hsame 1 (by decide) hone, fun g hg => ?_, by decide, ?_⟩
  · have hvalue : (eval Host.standard.toArray 2 0 e s).1 = .value .unspecified := by decide
    rcases hafter [.unspecified] (fun v hv => by rw [hvalue, List.mem_singleton.1 hv]) g hg with
      hg | hg
    · exact .inl (hreach g hg)
    · exact .inr hg.1
  · refine hsees hs (by decide) 1 (by decide) (fun g hg => ?_) "n"
    rw [chain_of_global (by decide) (hparent 1), List.mem_singleton] at hg
    rw [hg]
    exact hone

end Eval

end HostedLisp
