import HostedLisp.Proofs.Evaluation.Adequacy
import HostedLisp.Store.Lemmas

/-!
# The frame of a call

A call of a procedure makes a frame inside the one that the procedure was made in and binds the
parameters there, one after the other. What parameters are is looked at only now: there must be as
many as arguments, and each must be a symbol. Of equal names the last one counts.

A host that follows the call step by step sees the frame before all parameters were checked
(`bindInPlace`). It comes to the same, and whatever it leaves behind when a parameter is refused is
a frame that nothing leads to.

* `Bindings.get?_setAll_zip` -- what is bound when names are bound one after the other;
* `Store.fill`, `Store.bindInPlace` -- the same call, in a frame that is there from the start;
* `Store.CallFrame` -- what is there after a call;
* `Store.bind_exact` -- **binding parameters succeeds exactly if it has to, and then binds exactly
  the parameters**.
-/

namespace HostedLisp

/-! ## 1. Names that are bound one after the other -/

namespace Bindings

theorem setAll_cons (b : Bindings) (x : String) (v : Value) (new : List (String × Value)) :
    b.setAll ((x, v) :: new) = (b.set x v).setAll new :=
  rfl

theorem get?_setAll_of_not_mem {b : Bindings} {new : List (String × Value)} {x : String}
    (h : x ∉ new.map Prod.fst) : (b.setAll new).get? x = b.get? x := by
  induction new generalizing b with
  | nil => rfl
  | cons p new ih =>
    obtain ⟨hp, hnew⟩ := not_or.1 (mt List.mem_cons.2 h)
    rw [setAll_cons, ih hnew, get?_set, if_neg (Ne.symm hp)]

theorem binds_setAll (b : Bindings) (new : List (String × Value)) (x : String) :
    (b.setAll new).binds x = true ↔ x ∈ new.map Prod.fst ∨ b.binds x = true := by
  induction new generalizing b with
  | nil => simp [setAll]
  | cons p new ih =>
    rw [setAll_cons, ih, binds_set, List.map_cons, List.mem_cons, Bool.or_eq_true,
      decide_eq_true_iff, eq_comm (a := x), or_assoc]
    exact or_left_comm

/-- A name is bound once, however often it is set. -/
theorem nodup_set {b : Bindings} (h : (b.map Prod.fst).Nodup) (x : String) (v : Value) :
    ((b.set x v).map Prod.fst).Nodup := by
  induction b with
  | nil => exact List.nodup_cons.2 ⟨List.not_mem_nil, List.nodup_nil⟩
  | cons p rest ih =>
    obtain ⟨y, w⟩ := p
    obtain ⟨hy, hrest⟩ := List.nodup_cons.1 h
    rw [set]
    split
    · rename_i hyx
      exact List.nodup_cons.2 ⟨hyx ▸ hy, hrest⟩
    · rename_i hyx
      refine List.nodup_cons.2 ⟨fun hmem => ?_, ih hrest⟩
      obtain ⟨q, hq, hname⟩ := List.mem_map.1 hmem
      rcases mem_set hq with rfl | hq
      · exact hyx hname.symm
      · exact hy (List.mem_map.2 ⟨q, hq, hname⟩)

theorem nodup_setAll {b : Bindings} (h : (b.map Prod.fst).Nodup) (new : List (String × Value)) :
    ((b.setAll new).map Prod.fst).Nodup := by
  induction new generalizing b with
  | nil => exact h
  | cons p new ih => exact ih (nodup_set h p.1 p.2)

/-- **Of equal names the last one counts.** -/
theorem get?_setAll_zip {b : Bindings} {names : List String} {args : List Value} {x : String}
    {i : Nat} (hn : args.length = names.length) (hi : names[i]? = some x)
    (hlast : ∀ j, i < j → names[j]? ≠ some x) :
    (b.setAll (names.zip args)).get? x = args[i]? := by
  induction names generalizing b args i with
  | nil => cases hi
  | cons y names ih =>
    obtain ⟨a, args, rfl⟩ := List.exists_cons_of_length_eq_add_one hn
    have hn' : args.length = names.length := Nat.succ.inj hn
    rw [List.zip_cons_cons, setAll_cons]
    cases i with
    | zero =>
      cases hi
      -- no later name is this one, so its first value stays
      have hmem : x ∉ (names.zip args).map Prod.fst := by
        rw [List.map_fst_zip (Nat.le_of_eq hn'.symm)]
        intro hx
        obtain ⟨j, hj⟩ := List.mem_iff_getElem?.1 hx
        exact hlast (j + 1) (Nat.succ_pos j) hj
      rw [get?_setAll_of_not_mem hmem, get?_set, if_pos rfl]
      rfl
    | succ i => exact ih hn' hi fun j hj => hlast (j + 1) (Nat.succ_lt_succ hj)

end Bindings

namespace Store

/-! ## 2. A frame that is filled step by step -/

/-- Binds parameters to arguments in the frame `g`, one after the other, up to the first parameter
    that is no symbol. -/
def fill (g : Nat) : List (Value × Value) → Store → Except Error Unit × Store
  | [], s => (.ok (), s)
  | (q, v) :: rest, s =>
    match q.symbolName? with
    | none => (.error (.runtime (.parameterNotSymbol q.display)), s)
    | some x => fill g rest (s.define g x v)

/-- The frame for a call, made before the parameters are checked and filled while they are. -/
def bindInPlace (s : Store) (p : Procedure) (args : List Value) : Except Error Nat × Store :=
  if args.length = p.parameters.length then
    let (g, s) := s.newFrame (some p.frame) []
    let (r, s) := fill g (p.parameters.zip args) s
    (r.map fun _ => g, s)
  else (.error (.procedureArity p.parameters.length args.length), s)

section Fill

variable {s : Store} {parent : Option Nat} {b : Bindings}

/-- Defining a name in a new frame is making the frame with one more name. -/
theorem define_newFrame (s : Store) (parent : Option Nat) (b : Bindings) (x : String) (v : Value) :
    (s.newFrame parent b).2.define s.frames.size x v = (s.newFrame parent (b.set x v)).2 := by
  have hframes : ((s.newFrame parent b).2.define s.frames.size x v).frames
      = s.frames.push ⟨parent, b.set x v⟩ := by
    refine Array.ext_getElem? fun i => ?_
    rw [define, frames_modifyBindings, frames_newFrame, Array.getElem?_push, Array.getElem?_push]
    split
    · rename_i hi
      rw [if_pos hi.symm, if_pos hi.symm, Option.map_some]
    · rename_i hi
      rw [if_neg (Ne.symm hi), if_neg (Ne.symm hi)]
  exact congrArg (Store.mk · s.procedures s.effects) hframes

/-- Parameters that are symbols are bound, and then the others have their turn. -/
theorem fill_symbols (names : List String) (others : List Value) (args : List Value) :
    fill s.frames.size ((names.map Expression.symbol ++ others).zip args) (s.newFrame parent b).2
      = fill s.frames.size (others.zip (args.drop names.length))
          (s.newFrame parent (b.setAll (names.zip args))).2 := by
  induction names generalizing b args with
  | nil => rfl
  | cons x names ih =>
    cases args with
    | nil => simp [fill, Bindings.setAll]
    | cons a args =>
      have hfirst : fill s.frames.size
            (((x :: names).map Expression.symbol ++ others).zip (a :: args)) (s.newFrame parent b).2
          = fill s.frames.size ((names.map Expression.symbol ++ others).zip args)
              ((s.newFrame parent b).2.define s.frames.size x a) := rfl
      rw [hfirst, define_newFrame, ih]
      rfl

end Fill

section InPlace

variable {s : Store} {p : Procedure} {args : List Value} {names : List String}

theorem bindInPlace_of_length (hn : args.length = p.parameters.length) {r : Except Error Unit}
    {s' : Store} (h : fill s.frames.size (p.parameters.zip args) (s.newFrame (some p.frame) []).2
      = (r, s')) : s.bindInPlace p args = (r.map fun _ => s.frames.size, s') := by
  rw [bindInPlace, if_pos hn]
  exact congrArg (fun r : Except Error Unit × Store => (r.1.map fun _ => s.frames.size, r.2)) h

theorem bindInPlace_of_symbols (hn : args.length = p.parameters.length)
    (hp : p.parameters = names.map .symbol) :
    s.bindInPlace p args = (.ok s.frames.size,
      (s.newFrame (some p.frame) (Bindings.setAll [] (names.zip args))).2) := by
  refine bindInPlace_of_length (r := .ok ()) hn ?_
  rw [hp, ← List.append_nil (names.map _), fill_symbols]
  rfl

/-- Where a parameter is refused, the frame is left with the names before it. -/
theorem bindInPlace_of_parameter {q : Value} {after : List Value}
    (hn : args.length = p.parameters.length)
    (hp : p.parameters = names.map .symbol ++ q :: after) (hq : q.isSymbol = false) :
    s.bindInPlace p args = (.error (.runtime (.parameterNotSymbol q.display)),
      (s.newFrame (some p.frame) (Bindings.setAll [] (names.zip args))).2) := by
  refine bindInPlace_of_length (r := .error _) hn ?_
  have hlength : (args.drop names.length).length = after.length + 1 := by
    rw [List.length_drop, hn, hp]
    simp
  obtain ⟨a, rest, hargs⟩ := List.exists_cons_of_length_eq_add_one hlength
  rw [hp, fill_symbols, hargs]
  cases q with
  | symbol => cases hq
  | _ => rfl

/-- **Whatever it comes to, no frame that was there changes**, nor does anything else. -/
theorem bindInPlace_keeps (s : Store) (p : Procedure) (args : List Value) :
    (∀ f < s.frames.size, (s.bindInPlace p args).2.frames[f]? = s.frames[f]?) ∧
      (s.bindInPlace p args).2.procedures = s.procedures ∧
      (s.bindInPlace p args).2.effects = s.effects := by
  have hnew : ∀ bindings : Bindings, ∀ f < s.frames.size,
      (s.newFrame (some p.frame) bindings).2.frames[f]? = s.frames[f]? := by
    intro bindings f hf
    rw [frames_newFrame, Array.getElem?_push, if_neg (Nat.ne_of_lt hf)]
  by_cases hn : args.length = p.parameters.length
  · rcases Eval.parameters_cases p.parameters with ⟨names, hp⟩ | ⟨names, q, after, hp, hq⟩
    · rw [bindInPlace_of_symbols hn hp]
      exact ⟨hnew _, rfl, rfl⟩
    · rw [bindInPlace_of_parameter hn hp hq]
      exact ⟨hnew _, rfl, rfl⟩
  · rw [bindInPlace, if_neg hn]
    exact ⟨fun _ _ => rfl, rfl, rfl⟩

/-- **Both ways to bind parameters come to the same.** -/
theorem bindInPlace_eq (s : Store) (p : Procedure) (args : List Value) :
    (∀ g s', s.bindInPlace p args = (.ok g, s') ↔ s.bind p args = .ok (g, s')) ∧
      ∀ e, (s.bindInPlace p args).1 = .error e ↔ s.bind p args = .error e := by
  by_cases hn : args.length = p.parameters.length
  · rcases Eval.parameters_cases p.parameters with ⟨names, hp⟩ | ⟨names, q, after, hp, hq⟩
    · rw [bindInPlace_of_symbols hn hp, Eval.bind_of_symbols hn hp]
      simp [newFrame]
    · rw [bindInPlace_of_parameter hn hp hq, Eval.bind_of_parameter hn hp hq]
      simp
  · rw [bindInPlace, if_neg hn, Eval.bind_of_arity hn]
    simp

end InPlace

/-! ## 3. The frame of a call -/

/-- The last position at which the name is a parameter. -/
def LastAt (parameters : List Value) (x : String) (i : Nat) : Prop :=
  parameters[i]? = some (.symbol x) ∧ ∀ j, i < j → parameters[j]? ≠ some (.symbol x)

/-- `s'` is `s` with a frame for a call of `p`: the frame `g` is new, it is inside the one that the
    procedure was made in, and it binds the names of the parameters, each once and to the argument
    at the last position of the name. Nothing that was there has changed. -/
structure CallFrame (s : Store) (p : Procedure) (args : List Value) (g : Nat) (s' : Store) :
    Prop where
  isNew : g = s.frames.size
  size : s'.frames.size = s.frames.size + 1
  parent : s'.parent? g = some p.frame
  names : ∀ x, (s'.bindingsOf g).binds x = true ↔ .symbol x ∈ p.parameters
  once : ((s'.bindingsOf g).map Prod.fst).Nodup
  values : ∀ x v, (s'.bindingsOf g).get? x = some v ↔
    ∃ i, LastAt p.parameters x i ∧ args[i]? = some v
  frames : ∀ f < s.frames.size, s'.frames[f]? = s.frames[f]?
  procedures : s'.procedures = s.procedures
  effects : s'.effects = s.effects

theorem exists_lastAt {parameters : List Value} {x : String} (h : .symbol x ∈ parameters) :
    ∃ i, LastAt parameters x i := by
  induction parameters with
  | nil => cases h
  | cons q parameters ih =>
    by_cases hx : .symbol x ∈ parameters
    · obtain ⟨i, hi, hlast⟩ := ih hx
      refine ⟨i + 1, hi, fun j hj => ?_⟩
      obtain ⟨k, rfl⟩ := Nat.exists_eq_add_of_lt hj
      exact hlast (i + 1 + k) (by omega)
    · refine ⟨0, ?_, fun j hj hjx => ?_⟩
      · rw [(List.mem_cons.1 h).resolve_right hx]
        rfl
      · obtain ⟨k, rfl⟩ := Nat.exists_eq_add_of_lt hj
        rw [Nat.zero_add, List.getElem?_cons_succ] at hjx
        exact hx (List.mem_of_getElem? hjx)

section Call

variable {s : Store} {p : Procedure} {args : List Value} {names : List String}

theorem callFrame_of_symbols (hn : args.length = p.parameters.length)
    (hp : p.parameters = names.map .symbol) :
    CallFrame s p args s.frames.size
      (s.newFrame (some p.frame) (Bindings.setAll [] (names.zip args))).2 := by
  have hlength : args.length = names.length := by rw [hn, hp, List.length_map]
  have hbindings : (s.newFrame (some p.frame) (Bindings.setAll [] (names.zip args))).2.bindingsOf
      s.frames.size = Bindings.setAll [] (names.zip args) := by
    rw [bindingsOf_newFrame, if_pos rfl]
  have hat : ∀ (x : String) (i : Nat),
      p.parameters[i]? = some (.symbol x) ↔ names[i]? = some x := by
    intro x i
    rw [hp, List.getElem?_map]
    cases names[i]? <;> simp
  have hmem : ∀ x, .symbol x ∈ p.parameters ↔ x ∈ names := by
    intro x
    simp [hp]
  have hvalue : ∀ x i, LastAt p.parameters x i →
      (Bindings.setAll [] (names.zip args)).get? x = args[i]? := by
    intro x i hi
    exact Bindings.get?_setAll_zip hlength ((hat x i).1 hi.1)
      fun j hj hjx => hi.2 j hj ((hat x j).2 hjx)
  have hnames : ∀ x, (Bindings.setAll [] (names.zip args)).binds x = true ↔
      .symbol x ∈ p.parameters := by
    intro x
    rw [Bindings.binds_setAll, List.map_fst_zip (Nat.le_of_eq hlength.symm), hmem]
    exact or_iff_left nofun
  refine ⟨rfl, size_newFrame .., ?_, ?_, ?_, ?_, fun f hf => ?_, rfl, rfl⟩
  · rw [parent?_newFrame, if_pos rfl]
  · rw [hbindings]
    exact hnames
  · rw [hbindings]
    exact Bindings.nodup_setAll (b := []) List.nodup_nil _
  · rw [hbindings]
    refine fun x v => ⟨fun hv => ?_, fun ⟨i, hi, hv⟩ => (hvalue x i hi).trans hv⟩
    have hx : .symbol x ∈ p.parameters := (hnames x).1 (by rw [Bindings.binds, hv]; rfl)
    obtain ⟨i, hi⟩ := exists_lastAt hx
    exact ⟨i, hi, (hvalue x i hi).symm.trans hv⟩
  · rw [frames_newFrame, Array.getElem?_push, if_neg (Nat.ne_of_lt hf)]

/-- Parameters that are all symbols are the symbols of some names. -/
theorem exists_names {parameters : List Value} (h : ∀ q ∈ parameters, q.isSymbol = true) :
    ∃ names : List String, parameters = names.map .symbol := by
  rcases Eval.parameters_cases parameters with hnames | ⟨names, q, after, hp, hq⟩
  · exact hnames
  · have hmem : q ∈ parameters := by
      rw [hp]
      exact List.mem_append_right _ List.mem_cons_self
    rw [h q hmem] at hq
    cases hq

/-- Parameters that were bound were symbols, as many as there were arguments. -/
theorem exists_names_of_bind {g : Nat} {s' : Store} (h : s.bind p args = .ok (g, s')) :
    args.length = p.parameters.length ∧
      ∃ names : List String, p.parameters = names.map .symbol := by
  by_cases hn : args.length = p.parameters.length
  · refine ⟨hn, (Eval.parameters_cases p.parameters).resolve_right ?_⟩
    rintro ⟨names, q, after, hp, hq⟩
    rw [Eval.bind_of_parameter hn hp hq] at h
    cases h
  · rw [Eval.bind_of_arity hn] at h
    cases h

end Call

/-- **Binding parameters is exact.** For every procedure and all arguments, in every store,

    * it succeeds if and only if there are as many arguments as parameters and all parameters are
      symbols;
    * then the frame of the call is there as `CallFrame` says, and all else is as it was;
    * a wrong number of arguments is reported whatever the parameters are, and otherwise the first
      parameter that is no symbol;
    * the same comes of making the frame first and filling it while the parameters are checked; and
      then too, whether it succeeds or fails, all that was there stays as it was. -/
theorem bind_exact (s : Store) (p : Procedure) (args : List Value) :
    ((∃ g s', s.bind p args = .ok (g, s')) ↔
      args.length = p.parameters.length ∧ ∀ q ∈ p.parameters, q.isSymbol = true) ∧
    (∀ g s', s.bind p args = .ok (g, s') → CallFrame s p args g s') ∧
    (args.length ≠ p.parameters.length →
      s.bind p args = .error (.procedureArity p.parameters.length args.length)) ∧
    (args.length = p.parameters.length → ∀ before q after, p.parameters = before ++ q :: after →
      (∀ b ∈ before, b.isSymbol = true) → q.isSymbol = false →
      s.bind p args = .error (.runtime (.parameterNotSymbol q.display))) ∧
    ((∀ g s', s.bindInPlace p args = (.ok g, s') ↔ s.bind p args = .ok (g, s')) ∧
      ∀ e, (s.bindInPlace p args).1 = .error e ↔ s.bind p args = .error e) ∧
    (∀ f < s.frames.size, (s.bindInPlace p args).2.frames[f]? = s.frames[f]?) ∧
    (s.bindInPlace p args).2.procedures = s.procedures ∧
    (s.bindInPlace p args).2.effects = s.effects := by
  refine ⟨⟨fun ⟨g, s', h⟩ => ?_, fun ⟨hn, hsymbols⟩ => ?_⟩, fun g s' h => ?_, Eval.bind_of_arity,
    fun hn before q after hp hbefore hq => ?_, bindInPlace_eq s p args, bindInPlace_keeps s p args⟩
  · obtain ⟨hn, names, hp⟩ := exists_names_of_bind h
    refine ⟨hn, fun q hq => ?_⟩
    rw [hp] at hq
    obtain ⟨x, -, rfl⟩ := List.mem_map.1 hq
    rfl
  · obtain ⟨names, hp⟩ := exists_names hsymbols
    exact ⟨_, _, Eval.bind_of_symbols hn hp⟩
  · obtain ⟨hn, names, hp⟩ := exists_names_of_bind h
    rw [Eval.bind_of_symbols hn hp] at h
    cases h
    exact callFrame_of_symbols hn hp
  · obtain ⟨names, rfl⟩ := exists_names hbefore
    exact Eval.bind_of_parameter hn hp hq

/-- The parameters `(x y x)`, where the first argument is lost; and the parameters `(x "y" ())`,
    which are refused for the string, when `x` is bound already in a frame that is left behind. -/
theorem bind_exact_repeated :
    let s := Store.empty
    let args : List Value := [.boolean true, .string "a", .string "b"]
    let p : Procedure := ⟨[.symbol "x", .symbol "y", .symbol "x"], [.symbol "x"], 0⟩
    let q : Procedure := ⟨[.symbol "x", .string "y", .emptyList], [.symbol "x"], 0⟩
    (∃ g s', s.bind p args = .ok (g, s') ∧ CallFrame s p args g s' ∧
      (s'.bindingsOf g).get? "x" = some (.string "b")) ∧
    s.bind q args = .error (.runtime (.parameterNotSymbol "y")) ∧
    (s.bindInPlace q args).2.bindingsOf 0 = [("x", .boolean true)] := by
  intro s args p q
  obtain ⟨hsucceeds, hframe, -⟩ := bind_exact s p args
  obtain ⟨-, -, -, hrefused, -⟩ := bind_exact s q args
  obtain ⟨g, s', hbind⟩ := hsucceeds.2 ⟨rfl, by decide⟩
  have hlast : LastAt p.parameters "x" 2 := by
    refine ⟨rfl, fun j hj hjx => ?_⟩
    have hlt := (List.getElem?_eq_some_iff.1 hjx).1
    exact absurd hlt (Nat.not_lt.2 hj)
  refine ⟨⟨g, s', hbind, hframe g s' hbind, ((hframe g s' hbind).values _ _).2 ⟨2, hlast, rfl⟩⟩,
    ?_, by decide⟩
  exact hrefused rfl [.symbol "x"] (.string "y") [.emptyList] rfl (by decide) rfl

end Store

end HostedLisp
