import HostedLisp.Proofs.Sessions.DataAndCode

/-!
# Reserved words as variables

A keyword cannot be defined, set or bound by a scope: all three refuse it. The parameters of a
procedure are only asked to be symbols, and keywords are symbols, so a call binds them like other
names (`keyword_bound`). This is the one way in which a frame comes to bind a keyword: it stands
inside the frame of a procedure that has the keyword as a parameter, and that procedure was made by
an expression of one of the texts. The global frame binds none.

* `Store.Reserved` -- keywords are bound as parameters only;
* `upholds_reserved` -- all that evaluation does keeps it so;
* `keyword_is_parameter` -- **at no point of a run does a frame bind a keyword otherwise**.
-/

namespace HostedLisp

namespace Store

/-! ## 1. Names that are bound -/

variable {s : Store} {f g : Nat} {x : String} {v : Value} {b : String × Value}

theorem parent?_set : (s.set f x v).parent? g = s.parent? g := by
  rcases set_cases s f x v with he | ⟨k, -, he⟩
  · rw [he]
  · rw [he, define, parent?_modifyBindings]

theorem symbol_mem_of_parameterNames {parameters : List Value} {names : List String}
    (h : parameterNames parameters = .ok names) : ∀ x ∈ names, .symbol x ∈ parameters := by
  induction parameters generalizing names with
  | nil =>
    cases h
    exact nofun
  | cons p ps ih =>
    rw [parameterNames] at h
    cases p with
    | symbol y =>
      simp only [Expression.symbolName?] at h
      split at h
      · cases h
      · rename_i ys hys
        cases h
        exact List.forall_mem_cons.2
          ⟨List.mem_cons_self, fun x hx => List.mem_cons_of_mem _ (ih hys x hx)⟩
    | _ => cases h

/-- A call binds the parameters of the procedure and no other names. -/
theorem symbol_mem_of_argumentBindings {parameters args : List Value} {bindings : Bindings}
    (h : argumentBindings parameters args = .ok bindings) :
    ∀ b ∈ bindings, .symbol b.1 ∈ parameters := by
  intro b hb
  unfold argumentBindings at h
  split at h
  · split at h
    · cases h
    · rename_i names hnames
      cases h
      rcases Bindings.mem_setAll hb with hb | hb
      · exact symbol_mem_of_parameterNames hnames b.1 (List.of_mem_zip hb).1
      · cases hb
  · cases h

/-! ## 2. Keywords that are bound -/

/-- The procedure has the name as a parameter, and the frame stands in the one it was made in, as
    the frames of its calls do. -/
def IsParameter (s : Store) (g : Nat) (x : String) : Prop :=
  ∃ p ∈ s.procedures, s.parent? g = some p.frame ∧ .symbol x ∈ p.parameters

/-- Only parameters of procedures can be keywords. -/
def Reserved (s : Store) : Prop :=
  ∀ g, ∀ b ∈ s.bindingsOf g, Keyword.ofName? b.1 = none ∨ s.IsParameter g b.1

theorem IsParameter.mono {s₁ : Store} (h : s.IsParameter g x)
    (hp : ∀ p ∈ s.procedures, p ∈ s₁.procedures) (hparent : s₁.parent? g = s.parent? g) :
    s₁.IsParameter g x := by
  obtain ⟨p, hmem, hframe, hx⟩ := h
  exact ⟨p, hp p hmem, by rw [hparent, hframe], hx⟩

theorem Reserved.set (h : s.Reserved) (hx : Keyword.ofName? x = none) :
    (s.set f x v).Reserved := by
  intro g b hb
  rcases mem_bindingsOf_set hb with rfl | hb
  · exact .inl hx
  · refine (h g b hb).imp_right fun hp => hp.mono (fun p hp => ?_) parent?_set
    rwa [procedures_set]

theorem Reserved.push (h : s.Reserved) (p : Procedure) :
    Reserved { s with procedures := s.procedures.push p } := fun g b hb =>
  (h g b hb).imp_right fun hp => hp.mono (fun _ => Array.mem_push_of_mem p) rfl

/-- A new frame may bind keywords if it is for a call. -/
theorem Reserved.newFrame (h : s.Reserved) {bindings : Bindings}
    (hb : ∀ b ∈ bindings, Keyword.ofName? b.1 = none ∨
      ∃ p ∈ s.procedures, p.frame = f ∧ .symbol b.1 ∈ p.parameters) :
    (s.newFrame (some f) bindings).2.Reserved := by
  intro g b hmem
  rw [bindingsOf_newFrame] at hmem
  split at hmem
  · rename_i hg
    refine (hb b hmem).imp_right fun ⟨p, hp, hframe, hx⟩ => ⟨p, hp, ?_, hx⟩
    rw [parent?_newFrame, if_pos hg, hframe]
  · rename_i hg
    refine (h g b hmem).imp_right fun hp => hp.mono (fun _ hp => hp) ?_
    rw [parent?_newFrame, if_neg hg]

end Store

namespace Eval

/-- **Evaluation of code binds keywords as parameters only.** -/
theorem upholds_reserved {code : Value → Prop} (hcode : ∀ {e}, code e → ∀ q ∈ e.items, code q) :
    Upholds (fun s => Written code s ∧ s.Reserved) code := by
  have hwritten : Upholds (Written code) code := upholds_written hcode
  exact
    { evaluated := hwritten.evaluated
      effects := fun w hs => ⟨hwritten.effects w hs.1, hs.2⟩
      set := fun v hs hx => ⟨hwritten.set v hs.1 hx, hs.2.set hx⟩
      lambda := fun hs hform => ⟨hwritten.lambda hs.1 hform, hs.2.push _⟩
      body := fun hs => hwritten.body hs.1
      scope := fun hs hb => ⟨hwritten.scope hs.1 hb, hs.2.newFrame fun b hmem => .inl (hb b hmem)⟩
      call := fun {s id p args bindings} hs hp hb =>
        ⟨hwritten.call hs.1 hp hb, hs.2.newFrame fun b hmem =>
          .inr ⟨p, Array.mem_of_getElem? hp, rfl,
            Store.symbol_mem_of_argumentBindings hb b hmem⟩⟩ }

end Eval

namespace Session

open Eval

/-! ## 3. Sessions -/

theorem name_of_mem_references {id : Nat} {fs : List HostFunction} {b : String × Value}
    (h : b ∈ references id fs) : ∃ f ∈ fs, f.name = b.1 := by
  induction fs generalizing id with
  | nil => cases h
  | cons f fs ih =>
    rcases List.mem_cons.1 h with rfl | h
    · exact ⟨f, List.mem_cons_self, rfl⟩
    · obtain ⟨k, hk, hname⟩ := ih h
      exact ⟨k, List.mem_cons_of_mem f hk, hname⟩

/-- No standard host function has the name of a keyword. -/
theorem ordinary_standard {b : String × Value} {g : Nat}
    (h : b ∈ standard.store.bindingsOf g) : Keyword.ofName? b.1 = none := by
  have hnames : ∀ f ∈ Host.standard, Keyword.ofName? f.name = none := by decide
  match g, h with
  | 0, h =>
    rcases Bindings.mem_setAll h with h | h
    · obtain ⟨f, hf, hname⟩ := name_of_mem_references h
      rw [← hname]
      exact hnames f (mem_standard_of_mem_hosts (List.mem_toArray.2 hf))
    · cases h
  | g + 1, h => cases h

/-- Bindings of ordinary names leave all names ordinary. -/
theorem ordinary_bindAll {s : Session} {new : List (String × Value)}
    (hs : ∀ g, ∀ b ∈ s.store.bindingsOf g, Keyword.ofName? b.1 = none)
    (hnew : ∀ b ∈ new, Keyword.ofName? b.1 = none) :
    ∀ g, ∀ b ∈ (s.bindAll new).store.bindingsOf g, Keyword.ofName? b.1 = none := by
  induction new generalizing s with
  | nil => exact hs
  | cons a new ih =>
    obtain ⟨ha, hnew⟩ := List.forall_mem_cons.1 hnew
    refine ih (s := s.bind a.1 a.2) (fun g b hb => ?_) hnew
    rcases Store.mem_bindingsOf_define hb with rfl | hb
    · exact ha
    · exact hs g b hb

/-- A frame that binds a keyword stands in the frame of a procedure with this keyword as a
    parameter, which an expression of one of the texts has made. -/
def KeywordsAreParameters (texts : List String) (s : Store) : Prop :=
  ∀ g, ∀ b ∈ s.bindingsOf g, Keyword.ofName? b.1 ≠ none →
    ∃ p ∈ s.procedures, s.parent? g = some p.frame ∧ .symbol b.1 ∈ p.parameters ∧
      Form.ReadFrom (IsCode texts) (.lambda p.parameters p.body)

theorem keywordsAreParameters {texts : List String} {s : Store}
    (hs : Written (IsCode texts) s ∧ s.Reserved) : KeywordsAreParameters texts s := by
  intro g b hb hkeyword
  obtain ⟨p, hp, hframe, hx⟩ := (hs.2 g b hb).resolve_left hkeyword
  obtain ⟨id, hid⟩ := Array.getElem?_of_mem hp
  exact ⟨p, hp, hframe, hx, hs.1 id p hid⟩

/-- **Keywords are bound as parameters only.** In a standard session, with any further host
    functions and bindings of ordinary names, and after any texts, whatever each of them came to:
    at every point of the run of the next text, and at its end, a frame that binds a keyword stands
    in the frame of a procedure that has it as a parameter and was made by an expression of one of
    the texts. So the global frame binds no keyword, and no frame does if no text has a procedure
    with such a parameter. -/
theorem keyword_is_parameter (extra : List HostFunction) {bindings : List (String × Value)}
    (hbindings : ∀ b ∈ bindings, Keyword.ofName? b.1 = none) (fuel fuel' : Nat)
    (sources : List String) (text : String) :
    let hosts := standard.hosts ++ extra.toArray
    let s := runEach hosts fuel sources (standard.bindAll bindings).store
    (∀ g q t, EvaluatedIn hosts fuel' text s g q t → KeywordsAreParameters (text :: sources) t) ∧
      KeywordsAreParameters (text :: sources) (runSource hosts fuel' text s).2 := by
  intro hosts s
  have hkept : Upholds (fun s => Written (IsCode (text :: sources)) s ∧ s.Reserved)
      (IsCode (text :: sources)) := upholds_reserved isCode_items
  have hstart : Written (IsCode (text :: sources)) (standard.bindAll bindings).store ∧
      (standard.bindAll bindings).store.Reserved :=
    ⟨written_bindAll _ bindings, fun g b hb =>
      .inl (ordinary_bindAll (fun g b => ordinary_standard) hbindings g b hb)⟩
  have hs := hkept.runEach hosts fuel (List.subset_cons_self _ _) hstart
  have htext : text ∈ text :: sources := List.mem_cons_self
  exact ⟨fun g q t hq => keywordsAreParameters (of_evaluatedIn hkept htext hs hq).1,
    keywordsAreParameters (hkept.runSource hosts fuel' htext hs).store⟩

theorem parse_keyword_parameter : Program.parse "((lambda (if) #t) #f)" = .ok
    [.pair () (.pair () (.symbol "lambda") (.pair () (.pair () (.symbol "if") .emptyList)
      (.pair () (.boolean true) .emptyList))) (.pair () (.boolean false) .emptyList)] := by
  cbv

/-- A call with a keyword for a parameter, beside a binding of the host. -/
theorem keyword_is_parameter_call :
    let text := "((lambda (if) #t) #f)"
    let s := (runSource (standard.hosts ++ [].toArray) 3 text
      (standard.bindAll [("u", .unspecified)]).store).2
    s.bindingsOf 1 = [("if", .boolean false)] ∧ KeywordsAreParameters [text] s := by
  intro text s
  have hframe : s.bindingsOf 1 = [("if", .boolean false)] := by
    simp only [s, text, runSource, parse_keyword_parameter]
    rfl
  have hbindings : ∀ b ∈ ([("u", .unspecified)] : Bindings), Keyword.ofName? b.1 = none := by
    decide
  exact ⟨hframe, (keyword_is_parameter [] hbindings 3 3 [] text).2⟩

/-- **A keyword can be bound**: the parameters of a procedure are not asked to be ordinary names. -/
theorem keyword_bound :
    let s := (runSource standard.hosts 3 "((lambda (if) #t) #f)" standard.store).2
    Keyword.ofName? "if" = some .branch ∧ (s.bindingsOf 1).binds "if" = true := by
  intro s
  refine ⟨by decide, ?_⟩
  simp only [s, runSource, parse_keyword_parameter]
  rfl

end Session

end HostedLisp
