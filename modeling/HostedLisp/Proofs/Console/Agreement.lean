import HostedLisp.Proofs.Console.Lines
import HostedLisp.Proofs.Reading.Margins
import HostedLisp.Proofs.Sessions.Displayed
import HostedLisp.Proofs.Sessions.Splitting

/-!
# The file runner and the dialogue agree

The file runner reads a text as a whole and runs it once; the dialogue takes it line by line, leaves
out what is around a line, looks for its own commands, and clears the displayed text after each
line. If every line is a program of its own or blank, both do the same. Between them stand the
`answers` of a session that runs the lines one after the other:

* `parse_textLines` -- the expressions of the text are those of its lines, one after the other;
* `run_textLines` -- so the file runner writes what the lines write, and ends as they end;
* `answers_view`, `steps_eq` -- what was displayed before does not matter to a line, so the dialogue
  is the `conversation` made of the answers;
* `runFile_agrees_with_dialogue` -- **the file runner and the dialogue agree**.
-/

namespace HostedLisp.Console

open Eval Session

/-! ## 1. Lines -/

/-- The line consists of spaces, tabs and carriage returns. -/
def isSpace (line : String) : Bool := line.toList.all fun c => c = ' ' || c = '\t' || c = '\r'

/-- The line is a program of its own and no command of the dialogue. -/
def IsSource (line : String) : Prop :=
  (∃ program, Program.parse line = .ok program) ∧
    Text.trim line ∉ [":quit", ":q", ":help", ":env"]

/-- The expressions of a line, and none if it is no program. -/
def program (line : String) : List Datum :=
  match Program.parse line with
  | .error _ => []
  | .ok program => program

theorem isBlank_of_isSpace {line : String} (h : isSpace line = true) :
    ∀ c ∈ line.toList, Token.isBlank c = true := by
  intro c hc
  have hc := List.all_eq_true.1 h c hc
  simp only [Bool.or_eq_true, decide_eq_true_eq] at hc
  rcases hc with (rfl | rfl) | rfl <;> rfl

theorem trim_of_isSpace {line : String} (h : isSpace line = true) : Text.trim line = "" := by
  have hall : line.toList.dropWhile Text.isBlank = [] :=
    List.dropWhile_eq_nil_iff.2 fun c hc =>
      Token.text_isBlank_of_isBlank (isBlank_of_isSpace h c hc)
  rw [Text.trim, hall]
  rfl

/-- A program is more than blanks. -/
theorem trim_ne_empty {line : String} {es : List Datum} (h : Program.parse line = .ok es) :
    Text.trim line ≠ "" := by
  have hnothing : Program.parse "" = .error (.unreadable .start .unexpectedEnd) := by cbv
  intro hempty
  have htrim := Program.parse_trim h
  rw [hempty, hnothing] at htrim
  cases htrim

theorem IsSource.parse_eq {line : String} (h : IsSource line) :
    Program.parse line = .ok (program line) := by
  obtain ⟨⟨es, hes⟩, -⟩ := h
  rw [program, hes]

theorem IsSource.isSpace_eq {line : String} (h : IsSource line) : isSpace line = false :=
  Bool.eq_false_iff.2 fun hspace => trim_ne_empty h.parse_eq (trim_of_isSpace hspace)

theorem program_of_isSpace {line : String} (h : isSpace line = true) : program line = [] := by
  cases hparse : Program.parse line with
  | error err => rw [program, hparse]
  | ok es => exact absurd (trim_of_isSpace h) (trim_ne_empty hparse)

/-- Every line is blank or a program. -/
def Legible (lines : List String) : Prop := ∀ line ∈ lines, isSpace line = true ∨ IsSource line

theorem yields_program {line : String} (h : isSpace line = true ∨ IsSource line) :
    Program.Yields line.toList (program line) := by
  rcases h with h | h
  · rw [program_of_isSpace h]
    exact Program.yields_blank (isBlank_of_isSpace h)
  · exact (Program.parse_eq_ok_iff.1 h.parse_eq).2

/-! ## 2. The text and its lines -/

/-- The carriage return at the end of a line does not matter. -/
theorem yields_of_dropReturn {cs : List Char} {es : List Datum}
    (h : Program.Yields (dropReturn (String.ofList cs)).toList es) : Program.Yields cs es := by
  unfold dropReturn at h
  rw [String.toList_ofList] at h
  split at h
  · rename_i front hfront
    rw [String.toList_ofList] at h
    have hcs : cs = front.reverse ++ ['\r'] := by
      rw [← List.reverse_cons, ← hfront, List.reverse_reverse]
    rw [hcs]
    exact h.concat_blank rfl (by decide)
  · rw [String.toList_ofList] at h
    exact h

/-- A text holds what its lines hold, one after the other. The induction takes off the first line,
    up to its line break. -/
theorem yields_pieces (text : List Char)
    (h : ∀ cs ∈ pieces '\n' text, Program.Yields cs (program (dropReturn (String.ofList cs)))) :
    Program.Yields text
      ((pieces '\n' text).flatMap fun cs => program (dropReturn (String.ofList cs))) := by
  rcases pieces_cases '\n' text with ⟨hpieces, rfl⟩ | ⟨p, rest, -, htext, hpieces⟩ | ⟨-, hpieces⟩
  · exact Program.yields_blank nofun
  · have hlt : rest.length < text.length := by
      rw [htext]
      simp
      omega
    rw [hpieces] at h ⊢
    obtain ⟨hp, hrest⟩ := List.forall_mem_cons.1 h
    rw [List.flatMap_cons, htext]
    exact hp.append_newline (yields_pieces rest hrest)
  · rw [hpieces] at h ⊢
    rw [List.flatMap_singleton]
    exact h text List.mem_cons_self
termination_by text.length

/-- **The expressions of a text are those of its lines**, one after the other. -/
theorem parse_textLines {text : String} (hlines : Legible (textLines text))
    (hsome : ∃ line ∈ textLines text, IsSource line) :
    Program.parse text = .ok ((textLines text).flatMap program) := by
  rw [Program.parse_eq_ok_iff]
  constructor
  · obtain ⟨line, hline, hsource⟩ := hsome
    have hne := (Program.parse_eq_ok_iff.1 hsource.parse_eq).1
    intro hnone
    exact hne (List.flatMap_eq_nil_iff.1 hnone line hline)
  · have hyields := yields_pieces text.toList fun cs hcs =>
      yields_of_dropReturn (yields_program (hlines _ (List.mem_map_of_mem hcs)))
    rwa [textLines, List.flatMap_map]

/-! ## 3. Answers -/

/-- What a line comes to: nothing if it is blank, or else the texts that running it displays, and an
    outcome. -/
inductive Answer where
  | blank
  | ran (writes : List String) (outcome : Outcome Value)
deriving DecidableEq

/-- The texts that a line displays. -/
def Answer.writes : Answer → List String
  | .blank => []
  | .ran writes _ => writes

/-- What is printed as the result of a run. -/
def resultText : Outcome Value → String
  | .value v => printed v
  | _ => ""

/-- What is printed as the result of a line that is not blank. -/
def Answer.result? : Answer → Option String
  | .blank => none
  | .ran _ outcome => some (resultText outcome)

/-- The answers of a session that runs lines one after the other, until one comes to no value. -/
def answers (s : Session) : List String → List Answer
  | [] => []
  | line :: lines =>
    if isSpace line then .blank :: answers s lines
    else
      .ran (s.writes line) (s.run line).1 ::
        match s.run line with
        | (.value _, s) => answers s lines
        | _ => []

/-- What is printed as the result of the last line that is not blank. -/
def lastResult (as : List Answer) : String := (as.reverse.findSome? Answer.result?).getD ""

/-- The prompt for the `n`-th evaluation. -/
def prompt (n : Nat) : String := "cid[" ++ n.repr ++ "]> "

/-- What the dialogue prints: a prompt for every line, and what the line displays and comes to. The
    prompt is the last thing if the lines come to an end, and else what the last one displays. -/
def conversation : Nat → List Answer → String
  | n, [] => prompt n
  | n, .blank :: as => prompt n ++ conversation n as
  | n, .ran writes (.value v) :: as =>
    prompt n ++ String.join writes ++ printed v ++ conversation (n + 1) as
  | n, .ran writes _ :: _ => prompt n ++ String.join writes

/-- What the lines come to: the outcome of the first one that comes to no value, or else the value
    of the last one. -/
def ending : Value → List Answer → Outcome Value
  | last, [] => .value last
  | last, .blank :: as => ending last as
  | _, .ran _ (.value v) :: as => ending v as
  | _, .ran _ outcome :: _ => outcome

/-- The status that an outcome ends a process with. -/
def finalStatus : Outcome Value → Nat
  | .value _ => 0
  | .failure (.exit code) => statusOf code
  | _ => 1

theorem answers_of_isSpace (s : Session) {line : String} (h : isSpace line = true)
    (lines : List String) : answers s (line :: lines) = .blank :: answers s lines := by
  rw [answers, if_pos h]

theorem answers_of_isSource (s : Session) {line : String} (h : IsSource line)
    (lines : List String) :
    answers s (line :: lines) = .ran (s.writes line) (s.run line).1 ::
      match s.run line with
      | (.value _, s) => answers s lines
      | _ => [] := by
  rw [answers, if_neg (by rw [h.isSpace_eq]; decide)]

/-- An outcome that is no value is the last one. -/
theorem ending_of_mem {s : Session} {lines : List String} {writes : List String}
    {outcome : Outcome Value} (hmem : .ran writes outcome ∈ answers s lines)
    (hvalue : ∀ v, outcome ≠ .value v) (last : Value) :
    ending last (answers s lines) = outcome := by
  induction lines generalizing s last with
  | nil => cases hmem
  | cons line lines ih =>
    rw [answers] at hmem ⊢
    split at hmem
    · rename_i hspace
      rw [if_pos hspace]
      exact ih ((List.mem_cons.1 hmem).resolve_left nofun) last
    · rename_i hspace
      rw [if_neg hspace]
      generalize s.run line = r at hmem ⊢
      obtain ⟨o, s₁⟩ := r
      rcases List.mem_cons.1 hmem with hfirst | hrest
      · obtain ⟨-, rfl⟩ := Answer.ran.inj hfirst
        cases outcome with
        | value v => exact absurd rfl (hvalue v)
        | failure | unfinished => rfl
      · cases o with
        | value v => exact ih hrest v
        | failure | unfinished => cases hrest

/-- A failure at the end is that of a line. -/
theorem mem_of_ending {as : List Answer} {last : Value} {err : Error}
    (h : ending last as = .failure err) : ∃ writes, .ran writes (.failure err) ∈ as := by
  induction as generalizing last with
  | nil => cases h
  | cons a as ih =>
    cases a with
    | blank => exact (ih h).imp fun _ => List.mem_cons_of_mem _
    | ran writes outcome =>
      cases outcome with
      | value v => exact (ih h).imp fun _ => List.mem_cons_of_mem _
      | failure err' =>
        cases h
        exact ⟨writes, List.mem_cons_self⟩
      | unfinished => cases h

/-- If all lines come to values, so does the last. -/
theorem ending_of_values {as : List Answer}
    (h : ∀ writes outcome, .ran writes outcome ∈ as → ∃ v, outcome = .value v) (last : Value) :
    ∃ v, ending last as = .value v ∧
      printed v = (as.reverse.findSome? Answer.result?).getD (printed last) := by
  induction as generalizing last with
  | nil => exact ⟨last, rfl, rfl⟩
  | cons a as ih =>
    have hrest := ih fun writes outcome hmem => h writes outcome (List.mem_cons_of_mem a hmem)
    rw [List.reverse_cons, List.findSome?_append]
    cases a with
    | blank =>
      obtain ⟨v, hending, hprinted⟩ := hrest last
      refine ⟨v, hending, ?_⟩
      rw [hprinted]
      cases as.reverse.findSome? Answer.result? <;> rfl
    | ran writes outcome =>
      obtain ⟨w, rfl⟩ := h writes outcome List.mem_cons_self
      obtain ⟨v, hending, hprinted⟩ := hrest w
      refine ⟨v, hending, ?_⟩
      rw [hprinted]
      cases as.reverse.findSome? Answer.result? <;> rfl

/-! ## 4. The file runner -/

/-- The actions of two programs, one after the other. -/
theorem logEach_append {α : Type} (log : α → Store → List Action)
    (step : α → Store → Result Value) (last : Value) (as bs : List α) (s : Store) :
    logEach log step (as ++ bs) s
      = logEach log step as s
        ++ continuing (inTurn step last as s) fun _ s => logEach log step bs s := by
  induction as generalizing last s with
  | nil => rfl
  | cons a as ih =>
    rw [List.cons_append, logEach, logEach, inTurn, List.append_assoc]
    congr 1
    rcases step a s with ⟨_ | _ | _, s⟩
    · exact ih _ s
    · rfl
    · rfl

/-- **Running the expressions of all lines** writes what the lines write, and ends as they end. -/
theorem runIn_lines {lines : List String} (hlines : Legible lines) (s : Session) (last : Value) :
    (inTurn (evalDatum s.hosts fuel) last (lines.flatMap program) s.store).1
        = ending last (answers s lines) ∧
      written (performed s.hosts fuel (lines.flatMap program) s.store)
        = (answers s lines).flatMap Answer.writes := by
  induction lines generalizing s last with
  | nil => exact ⟨rfl, rfl⟩
  | cons line lines ih =>
    obtain ⟨hline, hrest⟩ := List.forall_mem_cons.1 hlines
    rw [List.flatMap_cons]
    rcases hline with hspace | hsource
    · rw [program_of_isSpace hspace, answers_of_isSpace s hspace]
      exact ih hrest s last
    · have hne := (Program.parse_eq_ok_iff.1 hsource.parse_eq).1
      have hrun : s.run line = s.keep (runIn s.hosts fuel (program line) s.store) := by
        rw [run, runSource, hsource.parse_eq]
      have hwrites : s.writes line
          = written (performed s.hosts fuel (program line) s.store) := by
        rw [writes, hsource.parse_eq]
      rw [answers_of_isSource s hsource, hrun, hwrites, inTurn_append,
        inTurn_of_ne_nil _ hne last .unspecified, performed, performed,
        logEach_append _ _ .unspecified]
      show (andThen (runIn s.hosts fuel (program line) s.store) _).1 = _ ∧
        written (_ ++ continuing (runIn s.hosts fuel (program line) s.store) _) = _
      rcases runIn s.hosts fuel (program line) s.store with ⟨v | err | _, store⟩
      · obtain ⟨hending, hwritten⟩ := ih hrest { s with store := store } v
        refine ⟨hending, ?_⟩
        rw [written, List.flatMap_append, List.flatMap_cons]
        exact congrArg _ hwritten
      · exact ⟨rfl, by simp [written, continuing, keep, Answer.writes]⟩
      · exact ⟨rfl, by simp [written, continuing, keep, Answer.writes]⟩

/-- **The file runner writes what the lines write**, and ends as they end. -/
theorem run_textLines {text : String} (hlines : Legible (textLines text))
    (hsome : ∃ line ∈ textLines text, IsSource line) (s : Session) :
    (s.run text).1 = ending .unspecified (answers s (textLines text)) ∧
      s.writes text = (answers s (textLines text)).flatMap Answer.writes := by
  have hparse := parse_textLines hlines hsome
  have hruns := runIn_lines hlines s .unspecified
  rw [run, runSource, writes, hparse]
  exact hruns

/-- What is taken from a session that had displayed nothing before a run. -/
theorem takeOutput_run {s : Session} (hstandard : ∀ h ∈ s.hosts, h ∈ Host.standard)
    (houtput : s.store.effects.output = "") (source : String) :
    (s.run source).2.takeOutput.1 = String.join (s.writes source) := by
  show (s.run source).2.store.effects.output = _
  rw [run_output hstandard, houtput, String.empty_append]

/-- What the file runner prints if the program comes to a value, exits or is unfinished. -/
theorem runProgram_eq {source : String} {outcome : Outcome Value}
    (hrun : (Session.standard.run source).1 = outcome)
    (hexit : ∀ err, outcome = .failure err → ∃ c, err = .exit c) :
    runProgram source
      = ⟨String.join (Session.standard.writes source) ++ resultText outcome, "",
          finalStatus outcome⟩ := by
  have hshown := takeOutput_run (s := .standard) (fun h => mem_standard_of_mem_hosts) rfl source
  rw [← hshown, runProgram]
  generalize Session.standard.run source = r at hrun ⊢
  obtain ⟨o, s⟩ := r
  obtain rfl : o = outcome := hrun
  cases o with
  | value v => rfl
  | failure err =>
    obtain ⟨c, rfl⟩ := hexit err rfl
    exact congrArg (Transcript.mk · _ _) String.append_empty.symm
  | unfinished => exact congrArg (Transcript.mk · _ _) String.append_empty.symm

/-! ## 5. The dialogue -/

/-- What was displayed before does not matter to the answers. -/
theorem answers_view {s : Session} (hstandard : ∀ h ∈ s.hosts, h ∈ Host.standard) (text : String)
    (lines : List String) : answers (s.view (text ++ ·)) lines = answers s lines := by
  induction lines generalizing s with
  | nil => rfl
  | cons line lines ih =>
    have hhosts : (s.run line).2.hosts = s.hosts := rfl
    rw [answers, answers, writes_view hstandard, run_view hstandard, ih hstandard]
    generalize s.run line = r at hhosts ⊢
    obtain ⟨outcome, s₁⟩ := r
    cases outcome with
    | value v =>
      have hrest : answers (s₁.view (text ++ ·)) lines = answers s₁ lines := ih (hhosts ▸ hstandard)
      simp only [hrest]
    | failure | unfinished => rfl

/-- The session before its displayed text was taken, seen from the one after. -/
theorem view_takeOutput (s : Session) :
    s.takeOutput.2.view (s.store.effects.output ++ ·) = s := by
  obtain ⟨hosts, registry, frames, procedures, nextCell, output⟩ := s
  show Session.mk hosts registry ⟨frames, procedures, nextCell, output ++ ""⟩ = _
  rw [String.append_empty]

/-- Taking the displayed text does not matter to the answers. -/
theorem answers_takeOutput {s : Session} (hstandard : ∀ h ∈ s.hosts, h ∈ Host.standard)
    (lines : List String) : answers s.takeOutput.2 lines = answers s lines := by
  have htaken := answers_view (s := s.takeOutput.2) hstandard s.store.effects.output lines
  rw [view_takeOutput] at htaken
  exact htaken.symm

/-- A line without what is around it is run like the line. -/
theorem run_trim (s : Session) {line : String} (h : IsSource line) :
    s.run (Text.trim line) = s.run line := by
  rw [run, run, runSource, runSource, Program.parse_trim h.parse_eq, h.parse_eq]

theorem step_of_isSpace (d : Dialogue.State) {line : String} (h : isSpace line = true) :
    Dialogue.step d (some line) = ⟨"", "", .ok d⟩ := by
  simp only [Dialogue.step, trim_of_isSpace h, if_true]

theorem step_of_isSource (d : Dialogue.State) {line : String} (h : IsSource line) :
    Dialogue.step d (some line) = Dialogue.evaluate d line := by
  have hne : Text.trim line ≠ "" := trim_ne_empty h.parse_eq
  have hcommand := h.2
  simp only [List.mem_cons, List.not_mem_nil, or_false, not_or] at hcommand
  obtain ⟨hquit, hq, hhelp, henv⟩ := hcommand
  simp only [Dialogue.step, hne, hquit, hq, hhelp, henv, if_false, decide_false, Bool.or_false,
    Bool.false_eq_true]
  rw [Dialogue.evaluate, Dialogue.evaluate, run_trim d.session h]

/-- **The dialogue is the conversation made of the answers.** By induction on the lines: the session
    has displayed nothing when a line has its turn, so it displays what the line writes, and the
    session that goes on is the one after the line but for the text that was taken from it. -/
theorem steps_eq {lines : List String} (hlines : Legible lines) {s : Session}
    (hstandard : ∀ h ∈ s.hosts, h ∈ Host.standard) (houtput : s.store.effects.output = "")
    (hexit : ∀ writes err, .ran writes (.failure err) ∈ answers s lines → ∃ c, err = .exit c)
    (n : Nat) (stdout stderr : String) (last : Value) :
    Dialogue.steps ⟨s, n⟩ stdout stderr (lines.map some)
      = ⟨stdout ++ conversation n (answers s lines), stderr,
          finalStatus (ending last (answers s lines))⟩ := by
  induction lines generalizing s n stdout last with
  | nil => rfl
  | cons line lines ih =>
    obtain ⟨hline, hrest⟩ := List.forall_mem_cons.1 hlines
    rcases hline with hspace | hsource
    · rw [answers_of_isSpace s hspace] at hexit ⊢
      have hnext := ih hrest hstandard houtput
        (fun writes err hmem => hexit writes err (List.mem_cons_of_mem _ hmem)) n
        (stdout ++ prompt n) last
      rw [List.map_cons, Dialogue.steps, step_of_isSpace _ hspace]
      simp only [String.append_empty]
      show Dialogue.steps ⟨s, n⟩ (stdout ++ prompt n) stderr _ = _
      rw [hnext, conversation, String.append_assoc]
      rfl
    · have hhosts : (s.run line).2.hosts = s.hosts := rfl
      have hshown := takeOutput_run hstandard houtput line
      rw [answers_of_isSource s hsource] at hexit ⊢
      rw [List.map_cons, Dialogue.steps, step_of_isSource _ hsource, Dialogue.evaluate]
      generalize s.run line = r at hhosts hshown hexit ⊢
      obtain ⟨outcome, s₁⟩ := r
      cases outcome with
      | value v =>
        have hstandard₁ : ∀ h ∈ s₁.hosts, h ∈ Host.standard := hhosts ▸ hstandard
        simp only [← answers_takeOutput hstandard₁] at hexit ⊢
        have hnext := ih (s := s₁.takeOutput.2) hrest hstandard₁ rfl
          (fun writes err hmem => hexit writes err (List.mem_cons_of_mem _ hmem)) (n + 1)
          (stdout ++ prompt n ++ (s₁.takeOutput.1 ++ printed v)) v
        rw [String.append_empty]
        refine hnext.trans ?_
        rw [hshown, conversation, ending]
        simp only [String.append_assoc]
      | failure err =>
        obtain ⟨c, rfl⟩ := hexit _ err List.mem_cons_self
        show Transcript.mk (stdout ++ prompt n ++ s₁.takeOutput.1) (stderr ++ "") _ = _
        rw [hshown, String.append_empty, String.append_assoc]
        rfl
      | unfinished =>
        show Transcript.mk (stdout ++ prompt n ++ s₁.takeOutput.1) (stderr ++ "") _ = _
        rw [hshown, String.append_empty, String.append_assoc]
        rfl

/-! ## 6. Agreement -/

/-- **The file runner and the dialogue agree.** Take a text whose lines are blank or programs of
    their own, with at least one of the latter, and the answers of a standard session that runs the
    lines one after the other. If no line fails but with an exit, then

    * running the text as a whole displays the texts that the lines display, each and in this order,
      and the dialogue prints them, between its prompts and the results of the lines;
    * neither prints an error, and both end with the same status;
    * if a line exits, that is the status of the code, and the file runner prints nothing but the
      displayed texts, as the conversation ends with those of the line that exits;
    * if all lines come to values, the status is 0, and behind the displayed texts the file runner
      prints what the dialogue prints as the result of the last line that is not blank. -/
theorem runFile_agrees_with_dialogue {contents : String → Except String String}
    {path text : String} (args : List String) (hfile : contents path = .ok text)
    (hlines : ∀ line ∈ textLines text, isSpace line = true ∨ IsSource line)
    (hsome : ∃ line ∈ textLines text, IsSource line)
    (hexit : ∀ writes err,
      .ran writes (.failure err) ∈ answers .standard (textLines text) → ∃ c, err = .exit c) :
    let as := answers .standard (textLines text)
    let file := runFile contents (path :: args)
    let talk := dialogue (linesOf text.toUTF8)
    Session.standard.writes text = as.flatMap Answer.writes ∧
    talk.stdout = Dialogue.greeting ++ conversation 1 as ∧
    file.stderr = "" ∧ talk.stderr = "" ∧ file.status = talk.status ∧
    (∀ writes c, .ran writes (.failure (.exit c)) ∈ as →
      file.stdout = String.join (as.flatMap Answer.writes) ∧ file.status = statusOf c) ∧
    ((∀ writes outcome, .ran writes outcome ∈ as → ∃ v, outcome = .value v) →
      file.stdout = String.join (as.flatMap Answer.writes) ++ lastResult as ∧
        file.status = 0) := by
  intro as file talk
  have hstandard : ∀ h ∈ Session.standard.hosts, h ∈ Host.standard :=
    fun h => mem_standard_of_mem_hosts
  obtain ⟨hrun, hwrites⟩ := run_textLines hlines hsome .standard
  have htalk : talk = ⟨Dialogue.greeting ++ conversation 1 as, "",
      finalStatus (ending .unspecified as)⟩ := by
    show dialogue (linesOf text.toUTF8) = _
    rw [linesOf_toUTF8]
    exact steps_eq hlines hstandard rfl hexit 1 _ _ .unspecified
  have hprogram : file = ⟨String.join (as.flatMap Answer.writes)
      ++ resultText (ending .unspecified as), "", finalStatus (ending .unspecified as)⟩ := by
    show runFile contents (path :: args) = _
    rw [runFile, hfile, ← hwrites]
    refine runProgram_eq hrun fun err herr => ?_
    obtain ⟨writes, hmem⟩ := mem_of_ending herr
    exact hexit writes err hmem
  rw [htalk, hprogram]
  refine ⟨hwrites, rfl, rfl, rfl, rfl, fun writes c hmem => ?_, fun hvalues => ?_⟩
  · rw [ending_of_mem hmem nofun]
    exact ⟨String.append_empty, rfl⟩
  · obtain ⟨v, hv, hprinted⟩ := ending_of_values hvalues .unspecified
    rw [hv]
    exact ⟨congrArg (String.join (as.flatMap Answer.writes) ++ ·) hprinted, rfl⟩

set_option maxRecDepth 4000 in
/-- A comment and a carriage return at the end of a line, a blank line, and a last line without a
    line break. -/
theorem runFile_agrees_with_dialogue_comment :
    let text := "(display 'a) ; b\r\n \t\n'c"
    let contents : String → Except String String := fun _ => .ok text
    let file := runFile contents ["file"]
    let talk := dialogue (linesOf text.toUTF8)
    textLines text = ["(display 'a) ; b", " \t", "'c"] ∧
      file.stdout = "a\nc\n" ∧ file.status = 0 ∧
      talk.stdout = Dialogue.greeting ++ "cid[1]> a\ncid[2]> cid[2]> c\ncid[3]> " ∧
      talk.status = 0 := by
  intro text contents file talk
  have htext : textLines text = ["(display 'a) ; b", " \t", "'c"] := by decide
  have hfirst : Program.parse "(display 'a) ; b" = .ok [.ofItems [.symbol "display",
      .ofItems [.symbol "quote", .symbol "a"]]] := by cbv
  have hlast : Program.parse "'c" = .ok [.ofItems [.symbol "quote", .symbol "c"]] := by cbv
  have hsources : IsSource "(display 'a) ; b" ∧ IsSource "'c" :=
    ⟨⟨⟨_, hfirst⟩, by decide⟩, ⟨_, hlast⟩, by decide⟩
  have hlines : ∀ line ∈ textLines text, isSpace line = true ∨ IsSource line := by
    rw [htext]
    simp only [List.forall_mem_cons, hsources, or_true, true_and]
    exact ⟨.inl rfl, List.forall_mem_nil _⟩
  have hsome : ∃ line ∈ textLines text, IsSource line := by
    rw [htext]
    exact ⟨_, List.mem_cons_self, hsources.1⟩
  have hanswers : answers .standard (textLines text)
      = [.ran ["a\n"] (.value .unspecified), .blank, .ran [] (.value (.symbol "c"))] := by
    rw [htext]
    simp only [answers, run, runSource, writes, hfirst, hlast]
    rfl
  have hvalues : ∀ writes outcome, .ran writes outcome ∈ answers .standard (textLines text) →
      ∃ v, outcome = .value v := by
    rw [hanswers]
    intro writes outcome hmem
    simp only [List.mem_cons, Answer.ran.injEq, reduceCtorEq, List.not_mem_nil, or_false,
      false_or] at hmem
    rcases hmem with ⟨-, rfl⟩ | ⟨-, rfl⟩ <;> exact ⟨_, rfl⟩
  have hfile : contents "file" = .ok text := rfl
  obtain ⟨-, htalk, -, -, hstatus, -, hprints⟩ :=
    runFile_agrees_with_dialogue [] hfile hlines hsome fun writes err hmem => by
      obtain ⟨v, hv⟩ := hvalues writes _ hmem
      cases hv
  obtain ⟨hstdout, hzero⟩ := hprints hvalues
  rw [hanswers] at htalk hstdout
  exact ⟨htext, hstdout, hzero, htalk, hstatus.symm.trans hzero⟩
end HostedLisp.Console
