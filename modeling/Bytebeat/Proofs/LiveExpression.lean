import Bytebeat.LiveExpression
import Bytebeat.Proofs.Meaning
import Bytebeat.Proofs.Reference

/-!
# Rows of edits and samples

A live expression is edited and evaluated in any order (`LiveExpression.run`).
What is heard are the meanings of the programs that compiled last, each on the
inputs of its sample, with random numbers drawn on from one program to the next
(`LiveExpression.jobs`). A text that does not compile has no part in this
(`LiveExpression.run_without_failures`).
-/

namespace Bytebeat.LiveExpression

inductive Call where
  | update (text : String)
  | process (inputs : Inputs)

namespace Call

def text? : Call → Option String
  | update text => some text
  | process _ => none

/-- The program that a call installs. -/
def installed? (c : Call) : Option Program :=
  c.text?.bind fun text => (Program.compile text).toOption

/-- The call sets a text that does not compile. -/
def fails (c : Call) : Bool := c.text?.any fun text => !Program.compiles text

theorem installed?_of_fails {c : Call} (h : c.fails = true) : c.installed? = none := by
  cases c with
  | process inputs => cases h
  | update text =>
    have hcompiles : (!Program.compiles text) = true := h
    rwa [Program.compiles, Bool.not_eq_true', Option.isSome_eq_false_iff,
      Option.isNone_iff_eq_none] at hcompiles

end Call

def run (x : LiveExpression) : List Call → List Float × LiveExpression
  | [] => ([], x)
  | .update text :: calls => (x.update text).run calls
  | .process inputs :: calls =>
    let (value, x) := x.process inputs
    let (values, x) := x.run calls
    (value :: values, x)

/-- The program that compiled last, or `p` if none did. -/
def latest (p : Program) (calls : List Call) : Program :=
  (calls.filterMap Call.installed?).getLastD p

def verdictOfLast (verdict : Bool) (calls : List Call) : Bool :=
  ((calls.filterMap Call.text?).map Program.compiles).getLastD verdict

/-- The programs that are evaluated, with the inputs of their samples, if `p` is the first. -/
def jobs (p : Program) : List Call → List (Program × Inputs)
  | [] => []
  | .update text :: calls => jobs ((Call.update text).installed?.getD p) calls
  | .process inputs :: calls => (p, inputs) :: jobs p calls

/-! ## One call -/

variable (x : LiveExpression)

theorem program_update (text : String) :
    (x.update text).program = (Call.update text).installed?.getD x.program := by
  unfold update Call.installed? Call.text?
  rw [Option.bind_some]
  cases Program.compile text <;> rfl

theorem isValid_update (text : String) : (x.update text).isValid = Program.compiles text := by
  unfold update Program.compiles
  cases Program.compile text <;> rfl

theorem evaluator_update (text : String) : (x.update text).evaluator = x.evaluator := by
  unfold update
  cases Program.compile text <;> rfl

/-! ## Rows of calls -/

theorem program_run (calls : List Call) : (x.run calls).2.program = latest x.program calls := by
  induction calls generalizing x with
  | nil => rfl
  | cons c calls ih =>
    cases c with
    | process inputs => exact ih (x.process inputs).2
    | update text =>
      rw [run, ih, program_update, latest, latest, List.filterMap_cons]
      cases (Call.update text).installed? with
      | none => rfl
      | some p => exact List.getLastD_cons.symm

theorem isValid_run (calls : List Call) :
    (x.run calls).2.isValid = verdictOfLast x.isValid calls := by
  induction calls generalizing x with
  | nil => rfl
  | cons c calls ih =>
    cases c with
    | process inputs => exact ih (x.process inputs).2
    | update text =>
      rw [run, ih, isValid_update]
      exact List.getLastD_cons.symm

/-- The samples are evaluations of the programs in force, on one evaluator. -/
theorem run_eq_evaluateAll (calls : List Call) :
    (x.run calls).1 = (x.evaluator.evaluateAll (jobs x.program calls)).1 ∧
      (x.run calls).2.evaluator = (x.evaluator.evaluateAll (jobs x.program calls)).2 := by
  induction calls generalizing x with
  | nil => exact ⟨rfl, rfl⟩
  | cons c calls ih =>
    cases c with
    | process inputs =>
      obtain ⟨hvalues, hevaluator⟩ := ih (x.process inputs).2
      exact ⟨congrArg (_ :: ·) hvalues, hevaluator⟩
    | update text =>
      have h := ih (x.update text)
      rw [program_update, evaluator_update] at h
      exact h

theorem jobs_filter (p : Program) (calls : List Call) :
    jobs p (calls.filter fun c => !c.fails) = jobs p calls := by
  induction calls generalizing p with
  | nil => rfl
  | cons c calls ih =>
    cases c with
    | process inputs => exact congrArg (_ :: ·) (ih p)
    | update text =>
      cases hfails : (Call.update text).fails with
      | false =>
        rw [List.filter_cons_of_pos (by rw [hfails]; rfl)]
        exact ih _
      | true =>
        rw [List.filter_cons_of_neg (by rw [hfails]; decide), ih, jobs,
          Call.installed?_of_fails hfails]
        rfl

theorem compiled_of_mem_jobs {p : Program} (hp : ∃ source, Program.compile source = .ok p)
    (calls : List Call) : ∀ job ∈ jobs p calls, ∃ source, Program.compile source = .ok job.1 := by
  induction calls generalizing p with
  | nil => nofun
  | cons c calls ih =>
    cases c with
    | process inputs => exact List.forall_mem_cons.2 ⟨hp, ih hp⟩
    | update text =>
      rw [jobs]
      refine ih ?_
      rw [Call.installed?, Call.text?, Option.bind_some]
      cases hcompile : Program.compile text with
      | error e => exact hp
      | ok q => exact ⟨text, hcompile⟩

/-- **A text that does not compile is not heard.** Without the calls that fail, a new expression
gives the same samples and is left with the same stack and generator. What it gives are the
meanings of the programs that compiled last, with random numbers drawn on from the first sample to
the last, whatever was set in between. It keeps the program that compiled last, and tells whether
the last text did. -/
theorem run_without_failures (calls : List Call) :
    let x := ({} : LiveExpression).run calls
    let kept := ({} : LiveExpression).run (calls.filter fun c => !c.fails)
    kept.1 = x.1 ∧ kept.2.evaluator = x.2.evaluator ∧
      Evaluator.Meanings (.ofSeed Program.defaultSeed) (jobs .empty calls) x.1
        x.2.evaluator.random ∧
      x.2.evaluator.random =
        Generator.next^[Evaluator.draws (jobs .empty calls)] (.ofSeed Program.defaultSeed) ∧
      x.2.program = latest .empty calls ∧ x.2.isValid = verdictOfLast true calls := by
  intro x kept
  obtain ⟨hvalues, hevaluator⟩ := run_eq_evaluateAll {} calls
  obtain ⟨hvalues', hevaluator'⟩ := run_eq_evaluateAll {} (calls.filter fun c => !c.fails)
  rw [jobs_filter] at hvalues' hevaluator'
  have hmeanings : Evaluator.Meanings (.ofSeed Program.defaultSeed) (jobs .empty calls) x.1
      x.2.evaluator.random := by
    rw [hvalues, hevaluator]
    exact Evaluator.meanings_evaluateAll
      (compiled_of_mem_jobs ⟨"", Program.compile_empty⟩ calls) ({} : LiveExpression).evaluator
  exact ⟨hvalues'.trans hvalues.symm, hevaluator'.trans hevaluator.symm, hmeanings,
    hmeanings.random, program_run {} calls, isValid_run {} calls⟩

end Bytebeat.LiveExpression
