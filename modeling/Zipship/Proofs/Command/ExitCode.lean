import Zipship.Command.Run
import Zipship.Proofs.Run.Report
import Zipship.Proofs.Task.Document
import Zipship.Proofs.Task.Plan
import Zipship.Tree.Layout

/-!
# The code that a process ends with

A process ends with zero exactly if every task of its plan was completed. Otherwise it ends with the
code of the test runner if that is what failed, and with one in every other case. That is so unless
a document is asked for and there is none, since something that was removed has a path that is no
text: then the process ends with one, whatever came of the tasks (`run_code`,
`undocumented_runs_end_with_one`).

The code is passed on through several hands, each of which could take a failure for a success: the
status of the runner says on its own whether it succeeded, an error carries a code, and a process
has only eight bits for it. For a program that has terminated they agree (`WaitStatus.Reports`).
-/

namespace Zipship

/-! ## How programs end -/

namespace WaitStatus

variable {w : WaitStatus} {n : Nat}

/-- The status reports that a program has terminated, and which code that is passed on as: the code
that the program returned, or 128 more than the signal that ended it, whether or not it left an
image of its memory. -/
inductive Reports : WaitStatus → Nat → Prop
  | returned {code : Nat} (h : code ≤ 255) : Reports ⟨256 * code⟩ code
  | killed {signal : Nat} (image : Bool) (h : 1 ≤ signal) (h' : signal ≤ 126) :
      Reports ⟨signal + if image then 128 else 0⟩ (128 + signal)

/-- The program has terminated, and was not only stopped. -/
def Terminated (w : WaitStatus) : Prop := ∃ n, w.Reports n

theorem Reports.exitCode_eq (h : w.Reports n) : w.exitCode = n := by
  cases h with
  | returned h =>
    have hlow : (256 * n : Int) % 128 = 0 := by omega
    rw [exitCode, low, if_pos hlow]
    show (256 * n : Int) / 256 % 256 = n
    omega
  | @killed signal image h h' =>
    have hlow : (signal + if image then 128 else 0 : Int) % 128 = signal := by
      cases image <;> simp <;> omega
    have hsome : (signal : Int) ≠ 0 := by omega
    have hterminated : (signal : Int) ≠ 127 := by omega
    rw [exitCode, low, hlow, if_neg hsome, if_neg hterminated]
    simp

theorem Reports.le (h : w.Reports n) : n ≤ 255 := by
  cases h <;> omega

/-- The status says that the program succeeded exactly if the code that is passed on is zero. -/
theorem Reports.success_iff (h : w.Reports n) : w.success = true ↔ n = 0 := by
  unfold success
  rw [decide_eq_true_eq]
  cases h with
  | returned h =>
    show (256 * n : Int) = 0 ↔ n = 0
    omega
  | killed image h h' => cases image <;> simp <;> omega

end WaitStatus

/-! ## How tasks fail -/

namespace Task

variable {task : Task} {m m' : Machine} {host : Host} {c : Config} {options : RunOptions}
  {e : Error}

/-- The last thing on the machine is that a program was launched and ended with a status. -/
def EndsWithLaunch (host : Host) (m : Machine) (w : WaitStatus) : Prop :=
  ∃ before launch tree ended, host.launcher before launch tree = .ok ended ∧
    ended.status = w ∧ m = ⟨ended.tree, before ++ [.launched launch, .wrote ended.out ended.err]⟩

/-- A task fails with the code of the test runner if that did not succeed, and otherwise with
one. -/
theorem error_of_perform (h : (perform host c options task).exec m = (.error e, m')) :
    (∃ w, EndsWithLaunch host m' w ∧ w.success = false ∧ e = .testsFailed task w.exitCode) ∨
      (∀ t code, e ≠ .testsFailed t code) ∧ e.exitCode = 1 := by
  generalize hresult : Except.error e = result at h
  cases performs h with
  | cleaned | packaged | passed => cases hresult
  | uncleaned | unpackaged | unmeasured | unlaunched =>
    cases hresult
    exact Or.inr ⟨by simp, rfl⟩
  | failed hfile hlaunch hsuccess =>
    cases hresult
    exact Or.inl ⟨_, ⟨_, _, _, _, hlaunch, rfl, rfl⟩, hsuccess, rfl⟩

end Task

section Runs

variable {t : Tree} {c : Config} {host : Host} {options : RunOptions} {plan : List Task}
  {r : RunReport} {m m' : Machine} {f : Task.Failure}

theorem exitCode_of_completed (hf : r.failed = none) : r.exitCode = 0 := by
  unfold RunReport.exitCode
  rw [hf]
  rfl

theorem exitCode_of_failure (hf : r.failed = some f) : r.exitCode = f.error.exitCode := by
  unfold RunReport.exitCode
  rw [hf]
  rfl

/-- Every program that is launched is waited for until it has terminated. -/
def Host.Waits (host : Host) : Prop :=
  ∀ log l t ended, host.launcher log l t = .ok ended → ended.status.Terminated

/-- A failed run has a code other than zero that fits in eight bits: that of the test runner if it
did not succeed, and otherwise one. -/
theorem exitCode_of_failed (hwaits : host.Waits)
    (h : executePlan host c options plan m = (r, m')) (hf : r.failed = some f) :
    ∃ n : Nat, r.exitCode = n ∧ n ≤ 255 ∧ n ≠ 0 ∧
      ((∃ w, Task.EndsWithLaunch host m' w ∧ w.success = false ∧
          f.error = .testsFailed f.task w.exitCode ∧ w.Reports n) ∨
        (∀ task code, f.error ≠ .testsFailed task code) ∧ n = 1) := by
  obtain ⟨-, reached, rest, -, -, hends⟩ := executePlan_completes h
  rw [hf] at hends
  have hexit := exitCode_of_failure hf
  rcases Task.error_of_perform hends.fails.2 with ⟨w, hlaunch, hsuccess, herror⟩ | ⟨hother, hone⟩
  · obtain ⟨before, launch, tree, ended, hlaunched, rfl, -⟩ := id hlaunch
    obtain ⟨n, hreports⟩ := hwaits before launch tree ended hlaunched
    refine ⟨n, ?_, hreports.le, ?_, Or.inl ⟨_, hlaunch, hsuccess, herror, hreports⟩⟩
    · rw [hexit, herror]
      exact hreports.exitCode_eq
    · intro hzero
      rw [hreports.success_iff.mpr hzero] at hsuccess
      cases hsuccess
  · exact ⟨1, by rw [hexit, hone]; rfl, by decide, by decide, Or.inr ⟨hother, rfl⟩⟩

end Runs

namespace Command

variable {t : Tree} {c : Config} {host : Host} {l : CommandLine} {args : List String}
  {elapsed : Display.Duration} {plan : List Task} {r : RunReport} {m : Machine}

/-- A code of eight bits is passed on as it is. -/
theorem processCode_of_le {n : Nat} (h : n ≤ 255) : processCode n = n := by
  unfold processCode
  rw [if_pos (by omega)]
  rfl

/-- A command line that asks for tasks and finds its configuration executes their plan. -/
theorem run_eq_perform (hparse : CommandLine.parse args = .ok l) (hcommand : l.command ≠ .tasks)
    (hload : Config.load t host.cwd host.env l.directory l.overrides = .ok c)
    (hplan : Graph.standard.plan l.requests = .ok plan) :
    run host elapsed args t = perform host elapsed c l.runOptions l.format plan t := by
  unfold run
  rw [hparse]
  show carryOut host elapsed l t = _
  unfold carryOut
  rw [if_neg hcommand, hload]
  simp only [hplan]

/-- The code of a run that was waited for is passed on as it is, and is zero exactly if no task
failed. -/
theorem processCode_of_executePlan {options : RunOptions} (hwaits : host.Waits)
    (hrun : executePlan host c options plan ⟨t, []⟩ = (r, m)) :
    (processCode r.exitCode : Int) = r.exitCode ∧
      (processCode r.exitCode = 0 ↔ r.failed = none) := by
  cases hf : r.failed with
  | none =>
    rw [exitCode_of_completed hf]
    simp [processCode]
  | some f =>
    obtain ⟨n, hexit, hle, hne, -⟩ := exitCode_of_failed hwaits hrun hf
    rw [hexit, processCode_of_le hle]
    simp [hne]

/-- A document is asked for, but there is none, because some path in the report is not a text. -/
def Undocumented (format : Format) (r : RunReport) : Prop :=
  format = .json ∧ ∃ p ∈ r.paths, ∀ s : String, p.bytes ≠ s

theorem undocumented_iff {format : Format} :
    Undocumented format r ↔ format = .json ∧ r.toJson?.isNone := by
  rw [Undocumented, ← Option.not_isSome, Bool.not_eq_true', ← Bool.not_eq_true,
    RunReport.exists_document_iff]
  simp only [not_forall, not_exists, exists_prop]

/-- **The code tells how the run ended**, unless it was to be told in a document that there is not:
then it is one. Else it is the code of the report, with nothing cut off. It is zero exactly if every
task of the plan was completed. Where the test runner ended without success, which is the last thing
that happened then, it is the code that the runner returned, or 128 more than the signal that ended
it, and never zero. After any other failure it is one. -/
theorem run_code (elapsed : Display.Duration) (hwaits : host.Waits)
    (hparse : CommandLine.parse args = .ok l) (hcommand : l.command ≠ .tasks)
    (hload : Config.load t host.cwd host.env l.directory l.overrides = .ok c) :
    ∃ plan r m, Graph.standard.plan l.requests = .ok plan ∧
      executePlan host c l.runOptions plan ⟨t, []⟩ = (r, m) ∧
      (run host elapsed args t).machine = m ∧
      (Undocumented l.format r → (run host elapsed args t).code = 1) ∧
      (¬ Undocumented l.format r →
        ((run host elapsed args t).code : Int) = r.exitCode ∧
        ((run host elapsed args t).code = 0 ↔ r.completed.map Task.Outcome.task = plan) ∧
        ∀ f, r.failed = some f →
          (∃ w, Task.EndsWithLaunch host m w ∧ w.success = false ∧
            f.error = .testsFailed f.task w.exitCode ∧
            w.Reports (run host elapsed args t).code ∧ (run host elapsed args t).code ≠ 0) ∨
          (∀ task code, f.error ≠ .testsFailed task code) ∧ (run host elapsed args t).code = 1) ∧
      ∀ w : WaitStatus, w.Terminated → (w.success = false ↔ w.exitCode ≠ 0) := by
  obtain ⟨plan, hplan, -⟩ :=
    Graph.plan_ok (Graph.not_cyclic_of_accepted Graph.ofDeclarations?_standard) l.requests
  have hsuccess : ∀ w : WaitStatus, w.Terminated → (w.success = false ↔ w.exitCode ≠ 0) := by
    rintro w ⟨n, hreports⟩
    rw [← Bool.not_eq_true, hreports.success_iff, hreports.exitCode_eq]
    omega
  cases hrun : executePlan host c l.runOptions plan ⟨t, []⟩ with
  | mk r m =>
    have hcode : (run host elapsed args t).code = endingCode l.format r ∧
        (run host elapsed args t).machine = m := by
      rw [run_eq_perform hparse hcommand hload hplan]
      unfold perform
      rw [hrun]
      exact ⟨rfl, rfl⟩
    obtain ⟨hcode, hmachine⟩ := hcode
    rw [hcode]
    refine ⟨plan, r, m, hplan, hrun, hmachine, fun hnone => ?_, fun hdocumented => ?_, hsuccess⟩
    · exact if_pos (undocumented_iff.mp hnone)
    have hending : endingCode l.format r = processCode r.exitCode :=
      if_neg (mt undocumented_iff.mpr hdocumented)
    obtain ⟨hexact, hzero⟩ := processCode_of_executePlan hwaits hrun
    rw [← failed_eq_none_iff hrun, hending]
    refine ⟨hexact, hzero, fun f hf => ?_⟩
    obtain ⟨n, hexit, hle, hne, hcases⟩ := exitCode_of_failed hwaits hrun hf
    rw [hexit, processCode_of_le hle]
    rcases hcases with ⟨w, hlaunch, hfailed, herror, hreports⟩ | hother
    · exact Or.inl ⟨w, hlaunch, hfailed, herror, hreports, hne⟩
    · exact Or.inr hother

/-- A host on which every program crashes and leaves an image of its memory. -/
def crashingHost : Host := ⟨[], [], fun _ _ t => .ok ⟨⟨11 + 128⟩, [], [], t⟩⟩

/-- A project with nothing in it. -/
def vacant : Tree := Tree.placeAll [] [.dir ⟨"/p"⟩] Tree.empty

set_option maxRecDepth 100000 in
theorem run_code_crashing : crashingHost.Waits ∧
    ∃ r m, executePlan crashingHost (Config.withRoot ⟨"/p"⟩) ⟨false, []⟩ [.clean, .test]
        ⟨vacant, []⟩ = (r, m) ∧
      r.failed = some ⟨.test, .testsFailed .test 139⟩ ∧
      ∃ w, Task.EndsWithLaunch crashingHost m w ∧
        w.Reports (run crashingHost ⟨0, 0⟩ ["test", "-C", "/p"] vacant).code := by
  have hwaits : crashingHost.Waits := by
    intro log l t ended h
    cases h
    have hkilled : WaitStatus.Reports ⟨11 + 128⟩ (128 + 11) := .killed true (by decide) (by decide)
    exact ⟨139, hkilled⟩
  have hparse : CommandLine.parse ["test", "-C", "/p"] =
      .ok ⟨⟨some ⟨"/p"⟩, none, none, none, none, false⟩, .perform .test, [], false, []⟩ := by
    decide +kernel
  have hload : Config.load vacant [] [] ⟨"/p"⟩ .none = .ok (Config.withRoot ⟨"/p"⟩) := by
    decide +kernel
  have hplan : Graph.standard.plan [.test] = .ok [.clean, .test] := by decide
  have hfailed : (executePlan crashingHost (Config.withRoot ⟨"/p"⟩) ⟨false, []⟩ [.clean, .test]
      ⟨vacant, []⟩).1.failed = some ⟨.test, .testsFailed .test 139⟩ := by
    decide +kernel
  obtain ⟨plan, r, m, hplan', hrun, -, -, hcode, -⟩ :=
    run_code ⟨0, 0⟩ hwaits hparse (by decide) hload
  obtain rfl : plan = [.clean, .test] := Except.ok.inj (hplan'.symm.trans hplan)
  have hrun : executePlan crashingHost (Config.withRoot ⟨"/p"⟩) ⟨false, []⟩ [.clean, .test]
      ⟨vacant, []⟩ = (r, m) := hrun
  rw [hrun] at hfailed
  refine ⟨hwaits, r, m, hrun, hfailed, ?_⟩
  obtain ⟨-, -, hcases⟩ := hcode fun hnone => by cases hnone.1
  rcases hcases _ hfailed with ⟨w, hlaunch, -, -, hreports, -⟩ | ⟨hother, -⟩
  · exact ⟨w, hlaunch, hreports⟩
  · exact absurd rfl (hother _ _)

/-- A project with a compiled file whose name is no text. -/
def unspeakable : Tree :=
  Tree.placeAll [] [.file (.child ⟨"/p"⟩ (0xff :: ".pyc")) [1] 0o644] Tree.empty

set_option maxRecDepth 100000 in
/-- **A run that completes every task can end with one**, if it is to be told in a document: what
was removed has a path that cannot be part of it. Told in text, the same run ends with zero. -/
theorem undocumented_runs_end_with_one :
    ∃ r m, Graph.standard.plan [.clean] = .ok [.clean] ∧
      executePlan crashingHost (Config.withRoot ⟨"/p"⟩) ⟨false, []⟩ [.clean]
        ⟨unspeakable, []⟩ = (r, m) ∧
      r.completed.map Task.Outcome.task = [.clean] ∧ r.exitCode = 0 ∧
      (run crashingHost ⟨0, 0⟩ ["clean", "-C", "/p"] unspeakable).code = 0 ∧
      (run crashingHost ⟨0, 0⟩ ["-o", "json", "clean", "-C", "/p"] unspeakable).code = 1 := by
  refine ⟨_, _, by decide +kernel, rfl, ?_⟩
  decide +kernel

end Command

end Zipship
