import HostedLisp.Proofs.Reading.Rereading
import HostedLisp.Proofs.Sessions.FirstFailure

/-!
# A text that cannot be read runs nothing

A text is read as a whole before anything of it runs. So the errors of reading and those of running
do not mix: a text that is no program changes nothing, and what runs fails in other ways.

* `Accounted.kind_of_failure` -- with the standard host functions, whatever is accounted for by
  actions fails with an error of the program or with an exit;
* `run_unreadable_iff` -- **a run fails because the text is unreadable exactly if the text is no
  program, and then nothing has happened**.
-/

namespace HostedLisp

namespace Eval

/-- **What runs does not fail because of a text.** -/
theorem Accounted.kind_of_failure {α : Type} {hosts : Host.Table} {s : Store} {as : List Action}
    {R : Computation α} (h : Accounted hosts s as R)
    (hstandard : ∀ k ∈ hosts, k ∈ Host.standard) {err : Error}
    (hfailure : (R hosts s).1 = .failure err) : err.kind = .runtime ∨ err.kind = .exit := by
  have htraces := h.traces
  rw [hfailure] at htraces
  obtain ⟨before, last, s₁, -, -, hlawful, hfails⟩ := htraces.exists_last
  obtain ⟨-, hkind | ⟨x, rest, -, hexit⟩⟩ := Action.failure_cases hstandard hlawful hfails
  · exact .inl hkind
  · rw [hexit]
    exact .inr rfl

end Eval

namespace Session

open Eval

/-- A text that is no program is run by returning the error of reading it. -/
theorem run_of_parse_error (s : Session) {source : String} {err : Error}
    (h : Program.parse source = .error err) : s.run source = (.failure err, s) := by
  rw [run, runSource, h]
  rfl

/-- **A syntax error means that nothing ran.** In every session whose host functions are standard
    ones, whatever its store, and for every source text:

    * running the text fails with an error of reading exactly if the text cannot be read;
    * then the error is the one that reading it gives, and the session is the same as before, with
      all its frames and the text displayed so far;
    * the failures of programs that were read, of values that are executed, and of every single
      evaluation in any frame, are errors of the program or exits. -/
theorem run_unreadable_iff {s : Session} (hstandard : ∀ h ∈ s.hosts, h ∈ Host.standard)
    (source : String) :
    ((∃ err, (s.run source).1 = .failure err ∧ err.kind = .unreadable) ↔
      ∃ err, Program.parse source = .error err) ∧
    (∀ err, Program.parse source = .error err →
      err.kind = .unreadable ∧ s.run source = (.failure err, s)) ∧
    (∀ fuel program t err, (runIn s.hosts fuel program t).1 = .failure err →
      err.kind = .runtime ∨ err.kind = .exit) ∧
    (∀ fuel program t err, (executeIn s.hosts fuel program t).1 = .failure err →
      err.kind = .runtime ∨ err.kind = .exit) ∧
    ∀ fuel f e t err, (eval s.hosts fuel f e t).1 = .failure err →
      err.kind = .runtime ∨ err.kind = .exit := by
  have hread : ∀ err, Program.parse source = .error err →
      err.kind = .unreadable ∧ s.run source = (.failure err, s) := by
    intro err hparse
    obtain ⟨p, fault, rfl⟩ := Program.unreadable_of_parse hparse
    exact ⟨rfl, s.run_of_parse_error hparse⟩
  have hrun : ∀ fuel program t err, (runIn s.hosts fuel program t).1 = .failure err →
      err.kind = .runtime ∨ err.kind = .exit :=
    fun fuel program t _ => (accounted_runIn s.hosts fuel program t).kind_of_failure hstandard
  refine ⟨⟨?_, ?_⟩, hread, hrun, fun fuel program t _ => ?_, fun fuel f e t _ => ?_⟩
  · rintro ⟨err, hfailure, hkind⟩
    cases hparse : Program.parse source with
    | error err' => exact ⟨err', rfl⟩
    | ok program =>
      have hprogram : (runIn s.hosts fuel program s.store).1 = .failure err := by
        rw [run, runSource, hparse] at hfailure
        exact hfailure
      rcases hrun fuel program s.store err hprogram with hr | hr
      · cases hkind.symm.trans hr
      · cases hkind.symm.trans hr
  · rintro ⟨err, hparse⟩
    obtain ⟨hkind, hfailure⟩ := hread err hparse
    exact ⟨err, by rw [hfailure], hkind⟩
  · exact (accounted_executeIn s.hosts fuel program t).kind_of_failure hstandard
  · exact (accounted_eval s.hosts fuel f e t).kind_of_failure hstandard

/-- A definition and a display that could run, and an open bracket behind them. -/
theorem run_unreadable_iff_open :
    let source := "(define x 'a) (display x) ("
    let err : Error := .unreadable ⟨0, 27⟩ .unclosedList
    (∀ h ∈ standard.hosts, h ∈ Host.standard) ∧ Program.parse source = .error err ∧
      standard.run source = (.failure err, standard) := by
  intro source err
  have hstandard : ∀ h ∈ standard.hosts, h ∈ Host.standard := fun h => mem_standard_of_mem_hosts
  have hparse : Program.parse source = .error err := by cbv
  exact ⟨hstandard, hparse, ((run_unreadable_iff hstandard source).2.1 err hparse).2⟩

end Session

end HostedLisp
