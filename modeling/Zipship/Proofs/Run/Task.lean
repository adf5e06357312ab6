import Zipship.Proofs.Run.Execution

/-!
# What a task does to a machine

`Task.Performs` lists the ways in which a task can end: what it gives or why it fails, the tree that
it leaves and what it adds to the log. `Task.performs` says that there are no others, so whatever is
to be known about a task is read off the list. Cleaning and packaging only touch the tree. Running
the tests launches one program and leaves what that leaves, unless the file for the measurement of
coverage is missing.
-/

namespace Zipship

variable {host : Host} {c : Config} {options : RunOptions} {m : Machine} {task : Task}
  {coverage : Bool} {extra : List String}

/-! ## Running the tests -/

/-- The launch of the runner of a project. -/
def Testing.launchOf (host : Host) (c : Config) (coverage : Bool) (extra : List String) : Launch :=
  (Invocation.ofConfig c coverage extra).toLaunch host.env

/-- What measures coverage has its file. -/
def Testing.Measurable (host : Host) (c : Config) (coverage : Bool) (t : Tree) : Prop :=
  coverage = true → t.isFile host.cwd c.coverageConfigPath = true

/-- The machine after launching a program that ended. -/
def Machine.launched (m : Machine) (l : Launch) (e : Ended) : Machine :=
  ⟨e.tree, m.log ++ [.launched l, .wrote e.out e.err]⟩

theorem Act.exec_launch (launcher : Launcher) (l : Launch) (wording : OsError → Task.Error)
    (m : Machine) : (Act.launch launcher l wording).exec m = match launcher m.log l m.tree with
      | .ok e => (.ok e.status, m.launched l e)
      | .error err => (.error (wording err), m.record (.launched l)) := rfl

namespace Testing

/-- The run of the tests from where the runner is launched. -/
def launchRunner (host : Host) (c : Config) (coverage : Bool) (extra : List String) :
    Act Report := do
  let i := Invocation.ofConfig c coverage extra
  let status ← Act.launch host.launcher (i.toLaunch host.env) fun e => .testing (.spawn i.program e)
  return reportOf i coverage status

theorem run_eq : run host c coverage extra =
    if coverage then
      Act.onTree (Edit.inspect (checkCoverageConfig host.cwd c)) .testing >>= fun _ =>
        launchRunner host c coverage extra
    else launchRunner host c coverage extra := by
  cases coverage <;> rfl

theorem exec_launchRunner : (launchRunner host c coverage extra).exec m =
    match host.launcher m.log (launchOf host c coverage extra) m.tree with
    | .ok e => (.ok (reportOf (Invocation.ofConfig c coverage extra) coverage e.status),
        m.launched (launchOf host c coverage extra) e)
    | .error err =>
      (.error (.testing (.spawn (Invocation.ofConfig c coverage extra).program err)),
        m.record (.launched (launchOf host c coverage extra))) := by
  unfold launchRunner
  rw [Act.exec_bind, Act.exec_launch]
  unfold launchOf
  cases host.launcher m.log _ m.tree <;> rfl

theorem exec_checkCoverageConfig :
    (Act.onTree (Edit.inspect (checkCoverageConfig host.cwd c)) .testing).exec m =
      if m.tree.isFile host.cwd c.coverageConfigPath then (.ok ⟨⟩, m)
      else (.error (.testing (.coverageConfigNotFound c.coverageConfigPath)), m) := by
  rw [Act.exec_onTree, Edit.exec_inspect]
  unfold checkCoverageConfig
  by_cases hfile : m.tree.isFile host.cwd c.coverageConfigPath = true
  · rw [if_pos hfile, if_pos hfile]
    rfl
  · rw [if_neg hfile, if_neg hfile]
    rfl

/-- A run of the tests stops where the file for the measurement of coverage is missing. -/
theorem exec_run_of_not_measurable (h : ¬ Measurable host c coverage m.tree) :
    (run host c coverage extra).exec m =
      (.error (.testing (.coverageConfigNotFound c.coverageConfigPath)), m) := by
  obtain ⟨rfl, hfile⟩ := Classical.not_imp.mp h
  rw [run_eq, if_pos rfl, Act.exec_bind, exec_checkCoverageConfig, if_neg hfile]

/-- Otherwise the runner is launched, once. -/
theorem exec_run_of_measurable (h : Measurable host c coverage m.tree) :
    (run host c coverage extra).exec m = (launchRunner host c coverage extra).exec m := by
  rw [run_eq]
  by_cases hcoverage : coverage = true
  · rw [if_pos hcoverage, Act.exec_bind, exec_checkCoverageConfig, if_pos (h hcoverage)]
  · rw [if_neg hcoverage]

end Testing

namespace Task

/-- The task that runs the tests, with or without the measurement of coverage. -/
def ofCoverage (coverage : Bool) : Task := if coverage then .testWithCoverage else .test

/-- What comes of the task that runs the tests. -/
def Outcome.ofCoverage (coverage : Bool) (r : Testing.Report) : Outcome :=
  if coverage then .testWithCoverage r else .test r

/-- The ways in which a task can end: what comes of it, and the machine that it leaves. -/
inductive Performs (host : Host) (c : Config) (options : RunOptions) (m : Machine) :
    Task → Except Error Outcome → Machine → Prop
  | cleaned {report : Clean.Report} {t : Tree}
      (h : (Clean.run host.cwd c options.dryRun).exec m.tree = (.ok report, t)) :
      Performs host c options m .clean (.ok (.clean report)) { m with tree := t }
  | uncleaned {e : Clean.Error} {t : Tree}
      (h : (Clean.run host.cwd c options.dryRun).exec m.tree = (.error e, t)) :
      Performs host c options m .clean (.error (.clean e)) { m with tree := t }
  | packaged {report : Package.Report} {t : Tree}
      (h : (Package.run host.cwd c).exec m.tree = (.ok report, t)) :
      Performs host c options m .compile (.ok (.compile report)) { m with tree := t }
  | unpackaged {e : Package.Error} {t : Tree}
      (h : (Package.run host.cwd c).exec m.tree = (.error e, t)) :
      Performs host c options m .compile (.error (.package e)) { m with tree := t }
  /-- There is no file for the measurement of coverage. -/
  | unmeasured {coverage : Bool} (h : ¬ Testing.Measurable host c coverage m.tree) :
      Performs host c options m (ofCoverage coverage)
        (.error (.testing (.coverageConfigNotFound c.coverageConfigPath))) m
  | unlaunched {coverage : Bool} {e : OsError} (hfile : Testing.Measurable host c coverage m.tree)
      (h : host.launcher m.log (Testing.launchOf host c coverage options.testArgs) m.tree =
        .error e) :
      Performs host c options m (ofCoverage coverage)
        (.error (.testing
          (.spawn (Invocation.ofConfig c coverage options.testArgs).program e)))
        (m.record (.launched (Testing.launchOf host c coverage options.testArgs)))
  | passed {coverage : Bool} {e : Ended} (hfile : Testing.Measurable host c coverage m.tree)
      (h : host.launcher m.log (Testing.launchOf host c coverage options.testArgs) m.tree = .ok e)
      (hsuccess : e.status.success = true) :
      Performs host c options m (ofCoverage coverage)
        (.ok (.ofCoverage coverage (Testing.reportOf
          (Invocation.ofConfig c coverage options.testArgs) coverage e.status)))
        (m.launched (Testing.launchOf host c coverage options.testArgs) e)
  | failed {coverage : Bool} {e : Ended} (hfile : Testing.Measurable host c coverage m.tree)
      (h : host.launcher m.log (Testing.launchOf host c coverage options.testArgs) m.tree = .ok e)
      (hsuccess : e.status.success = false) :
      Performs host c options m (ofCoverage coverage)
        (.error (.testsFailed (ofCoverage coverage) e.status.exitCode))
        (m.launched (Testing.launchOf host c coverage options.testArgs) e)

theorem perform_ofCoverage : perform host c options (ofCoverage coverage) =
    Testing.run host c coverage options.testArgs >>= fun r =>
      succeeded (ofCoverage coverage) r >>= fun r => pure (.ofCoverage coverage r) := by
  cases coverage <;> rfl

theorem exec_succeeded (r : Testing.Report) : (succeeded task r).exec m =
    (if r.success then .ok r else .error (.testsFailed task r.exitCode), m) := by
  unfold succeeded
  cases r.success <;> rfl

theorem performs_ofCoverage (coverage : Bool) :
    Performs host c options m (ofCoverage coverage)
      ((perform host c options (ofCoverage coverage)).exec m).1
      ((perform host c options (ofCoverage coverage)).exec m).2 := by
  rw [perform_ofCoverage, Act.exec_bind]
  by_cases hfile : Testing.Measurable host c coverage m.tree
  · rw [Testing.exec_run_of_measurable hfile, Testing.exec_launchRunner]
    cases hlaunch : host.launcher m.log (Testing.launchOf host c coverage options.testArgs)
        m.tree with
    | error e => exact .unlaunched hfile hlaunch
    | ok e =>
      have hreport : (Testing.reportOf (Invocation.ofConfig c coverage options.testArgs) coverage
          e.status).success = e.status.success := rfl
      simp only [Act.exec_bind, exec_succeeded, hreport]
      cases hsuccess : e.status.success with
      | true => exact .passed hfile hlaunch hsuccess
      | false => exact .failed hfile hlaunch hsuccess
  · rw [Testing.exec_run_of_not_measurable hfile]
    exact .unmeasured hfile

/-- **A task ends in one of these ways.** -/
theorem performs_exec (host : Host) (c : Config) (options : RunOptions) (m : Machine)
    (task : Task) : Performs host c options m task ((perform host c options task).exec m).1
      ((perform host c options task).exec m).2 := by
  cases task with
  | clean =>
    unfold perform
    rw [Act.exec_bind, Act.exec_onTree]
    cases hrun : (Clean.run host.cwd c options.dryRun).exec m.tree with
    | mk result t =>
      cases result with
      | ok report => exact .cleaned hrun
      | error e => exact .uncleaned hrun
  | compile =>
    unfold perform
    rw [Act.exec_bind, Act.exec_onTree]
    cases hrun : (Package.run host.cwd c).exec m.tree with
    | mk result t =>
      cases result with
      | ok report => exact .packaged hrun
      | error e => exact .unpackaged hrun
  | test => exact performs_ofCoverage false
  | testWithCoverage => exact performs_ofCoverage true

theorem performs {result : Except Error Outcome} {m' : Machine}
    (h : (perform host c options task).exec m = (result, m')) :
    Performs host c options m task result m' := by
  have hends := performs_exec host c options m task
  rwa [h] at hends

end Task

end Zipship
