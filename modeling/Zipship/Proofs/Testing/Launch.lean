import Zipship.Proofs.Run.Attempt
import Zipship.Proofs.Tree.Lookup
import Zipship.Tree.Layout

/-!
# How the runner is launched

A run of the tests launches one program: the runner of the project, with the words of the
configuration and the further arguments, in the directory of the project and with two variables set
(`Launch.IsRunner`). The measurement of coverage needs its file; without it nothing is launched at
all. What a whole run launches is put together from its attempts.
-/

namespace Zipship

/-! ## Variables -/

theorem Environment.get?_append (env more : Environment) (key : Bytes) :
    get? (env ++ more) key = (env.get? key).or (more.get? key) :=
  List.lookup_append

theorem Environment.get?_filter_ne (env : Environment) (removed key : Bytes) :
    get? (env.filter fun e => e.1 ≠ removed) key =
      if key = removed then none else env.get? key := by
  induction env with
  | nil => simp [get?]
  | cons e env ih =>
    unfold get? at ih ⊢
    grind

/-- Setting a variable changes that one only. -/
theorem Environment.get?_set (env : Environment) (name value key : Bytes) :
    (env.set name value).get? key = if key = name then some value else env.get? key := by
  unfold set
  rw [get?_append, get?_filter_ne]
  unfold get?
  by_cases hkey : key = name
  · subst hkey
    simp
  · simp [hkey]

/-! ## The launch of a runner -/

/-- The launch starts the runner of a project, with or without the measurement of coverage, for
somebody with the variables `env`. -/
structure Launch.IsRunner (l : Launch) (env : Environment) (c : Config) (coverage : Bool)
    (extra : List String) : Prop where
  program : l.program = c.test.runner.head?.getD ""
  args : l.args = c.test.runner.tail ++
    (if coverage then ["--cov=" ++ c.test.coverageModule, "--cov-report=term-missing",
      "--cov-config=" ++ c.test.coverageConfig.shown] else []) ++ c.test.args ++ extra
  cwd : l.cwd = c.root
  env : ∀ key, l.env.get? key =
    if key = "PYTHONPATH" then some c.src.bytes
    else if key = "PYTHONDONTWRITEBYTECODE" then some ("1" : Bytes)
    else env.get? key

/-- A launch as one line, with the two variables that are set for a runner. -/
def Launch.line (l : Launch) : String :=
  String.intercalate " "
    ((["PYTHONDONTWRITEBYTECODE", "PYTHONPATH"].map fun (key : String) =>
      key ++ "=" ++ ((l.env.get? key).getD []).shown) ++ l.program :: l.args)

/-- The report tells of this launch of a runner, and of how the program ended. -/
structure Testing.Report.Describes (r : Report) (l : Launch) (coverage : Bool)
    (status : WaitStatus) : Prop where
  command : r.command = l.line
  coverage : r.coverage = coverage
  success : r.success = status.success
  exitCode : r.exitCode = status.exitCode

namespace Testing

variable {host : Host} {c : Config} {coverage : Bool} {extra : List String} {m : Machine}

theorem launchOf_isRunner (host : Host) (c : Config) (coverage : Bool) (extra : List String) :
    (launchOf host c coverage extra).IsRunner host.env c coverage extra where
  program := rfl
  args := rfl
  cwd := rfl
  env key := by
    show Environment.get? ((host.env.set _ _).set _ _) key = _
    rw [Environment.get?_set, Environment.get?_set]
    rfl

theorem line_launchOf (host : Host) (c : Config) (coverage : Bool) (extra : List String) :
    (launchOf host c coverage extra).line =
      (Invocation.ofConfig c coverage extra).commandLine := by
  have henv := (launchOf_isRunner host c coverage extra).env
  unfold Launch.line
  simp only [List.map_cons, List.map_nil, henv]
  rfl

theorem reportOf_describes (host : Host) (c : Config) (coverage : Bool) (extra : List String)
    (status : WaitStatus) :
    (reportOf (Invocation.ofConfig c coverage extra) coverage status).Describes
      (launchOf host c coverage extra) coverage status where
  command := (line_launchOf host c coverage extra).symm
  coverage := rfl
  success := rfl
  exitCode := rfl

end Testing

/-! ## Attempts to run the tests -/

/-- The report on the runner decides what comes of the task. -/
theorem Task.exec_perform_ofCoverage {host : Host} {c : Config} {options : RunOptions}
    {coverage : Bool} {m m' : Machine} {result : Except Error Testing.Report}
    (hrun : (Testing.run host c coverage options.testArgs).exec m = (result, m')) :
    (perform host c options (ofCoverage coverage)).exec m =
      (result.bind fun r => if r.success then .ok (.ofCoverage coverage r)
        else .error (.testsFailed (ofCoverage coverage) r.exitCode), m') := by
  rw [perform_ofCoverage, Act.exec_bind, hrun]
  cases result with
  | error e => rfl
  | ok r =>
    simp only [Act.exec_bind, exec_succeeded, Except.bind]
    cases r.success <;> rfl

/-- Tasks that do not run the tests launch nothing. -/
theorem Task.log_of_perform_quiet {host : Host} {c : Config} {options : RunOptions} {task : Task}
    {m m' : Machine} {result : Except Error Outcome}
    (h : (perform host c options task).exec m = (result, m'))
    (htask : ∀ coverage, task ≠ ofCoverage coverage) : m'.log = m.log := by
  cases performs h with
  | cleaned | uncleaned | packaged | unpackaged => rfl
  | unmeasured | unlaunched | passed | failed => exact absurd rfl (htask _)

namespace Attempt

variable {host : Host} {c : Config} {options : RunOptions} {coverage : Bool} {extra : List String}
  {a : Attempt}

/-- The attempt launches the runner, once. What the launch does is what the attempt does to the
tree, and the report on it decides what comes of the task. -/
def RunsTests (host : Host) (c : Config) (coverage : Bool) (extra : List String)
    (a : Attempt) : Prop :=
  ∃ l, a.launches = [l] ∧ l.IsRunner host.env c coverage extra ∧
    match host.launcher a.before.log l a.before.tree with
    | .error e =>
      a.after.tree = a.before.tree ∧ a.result = .error (.testing (.spawn l.program e))
    | .ok ended =>
      a.after.tree = ended.tree ∧ ∃ r,
        (Testing.run host c coverage extra).exec a.before = (.ok r, a.after) ∧
        r.Describes l coverage ended.status ∧
        a.result = if r.success then .ok (.ofCoverage coverage r)
          else .error (.testsFailed a.task r.exitCode)

/-- The attempt launches the runner as it is configured, or nothing. -/
def LaunchesRunner (host : Host) (c : Config) (extra : List String) (a : Attempt) : Prop :=
  match a.task with
  | .clean | .compile => a.launches = []
  | .test => a.RunsTests host c false extra
  | .testWithCoverage =>
    (a.before.tree.LeadsToFile host.cwd c.coverageConfigPath → a.RunsTests host c true extra) ∧
    (¬ a.before.tree.LeadsToFile host.cwd c.coverageConfigPath → a.launches = [] ∧
      a.after = a.before ∧
      a.result = .error (.testing (.coverageConfigNotFound c.coverageConfigPath)))

theorem launches_of_log_eq (h : a.after.log = a.before.log) : a.launches = [] :=
  launches_eq (h.trans (List.append_nil _).symm)

/-- An attempt to run the tests that is not held up launches the runner. -/
theorem runsTests_of_measurable (coverage : Bool) (htask : a.task = .ofCoverage coverage)
    (hexec : (Task.perform host c options a.task).exec a.before = (a.result, a.after))
    (hfile : Testing.Measurable host c coverage a.before.tree) :
    a.RunsTests host c coverage options.testArgs := by
  have hrunner := Testing.launchOf_isRunner host c coverage options.testArgs
  have hrun : (Testing.run host c coverage options.testArgs).exec a.before = _ :=
    Testing.exec_run_of_measurable hfile
  rw [Testing.exec_launchRunner] at hrun
  unfold RunsTests
  refine ⟨Testing.launchOf host c coverage options.testArgs, ?_⟩
  cases hlaunch : host.launcher a.before.log (Testing.launchOf host c coverage options.testArgs)
      a.before.tree with
  | error e =>
    simp only [hlaunch] at hrun ⊢
    rw [htask, Task.exec_perform_ofCoverage hrun] at hexec
    obtain ⟨hresult, hafter⟩ := Prod.mk.inj hexec
    have hlaunches : a.launches = [Testing.launchOf host c coverage options.testArgs] :=
      launches_eq (congrArg Machine.log hafter.symm)
    rw [← hafter, ← hresult]
    exact ⟨hlaunches, hrunner, rfl, rfl⟩
  | ok ended =>
    simp only [hlaunch] at hrun ⊢
    rw [htask, Task.exec_perform_ofCoverage hrun] at hexec
    obtain ⟨hresult, hafter⟩ := Prod.mk.inj hexec
    have hlaunches : a.launches = [Testing.launchOf host c coverage options.testArgs] :=
      launches_eq (congrArg Machine.log hafter.symm)
    rw [← hafter, ← hresult, htask]
    exact ⟨hlaunches, hrunner, rfl, _, hrun, Testing.reportOf_describes host c coverage _ _, rfl⟩

/-- An attempt to measure coverage without its file launches nothing. -/
theorem unmeasured (coverage : Bool) (htask : a.task = .ofCoverage coverage)
    (hexec : (Task.perform host c options a.task).exec a.before = (a.result, a.after))
    (hfile : ¬ Testing.Measurable host c coverage a.before.tree) :
    a.launches = [] ∧ a.after = a.before ∧
      a.result = .error (.testing (.coverageConfigNotFound c.coverageConfigPath)) := by
  rw [htask, Task.exec_perform_ofCoverage (Testing.exec_run_of_not_measurable hfile)] at hexec
  obtain ⟨hresult, hafter⟩ := Prod.mk.inj hexec
  exact ⟨launches_of_log_eq (by rw [hafter]), hafter.symm, hresult.symm⟩

/-- An attempt launches the runner as it is configured, or nothing. -/
theorem launchesRunner_of_exec
    (hexec : (Task.perform host c options a.task).exec a.before = (a.result, a.after)) :
    a.LaunchesRunner host c options.testArgs := by
  unfold LaunchesRunner
  cases htask : a.task with
  | clean | compile =>
    exact launches_of_log_eq (Task.log_of_perform_quiet hexec fun coverage => by
      rw [htask]
      cases coverage <;> decide)
  | test =>
    exact runsTests_of_measurable false htask hexec fun h => nomatch h
  | testWithCoverage =>
    refine ⟨fun hfile => ?_, fun hfile => ?_⟩
    · exact runsTests_of_measurable true htask hexec fun _ =>
        Tree.isFile_iff.mpr hfile
    · exact unmeasured true htask hexec fun h => hfile (Tree.isFile_iff.mp (h rfl))

end Attempt

/-! ## What a run launches -/

/-- **The runner is launched as it is configured, or not at all.** A run comes to tasks of its plan
one after another, each on the tree that the one before it left. What it launches is what they
launch: the runner, once, for the tests, and for the measurement of coverage only if its file is
there; the task fails otherwise, and leaves everything as it was. -/
theorem executePlan_launches_runner (host : Host) (c : Config) (options : RunOptions)
    (plan : List Task) (m : Machine) :
    let reached := attempts (Task.perform host c options) plan m
    (reached.map Attempt.task <+: plan ∧
      (reached.IsChain fun a b => b.before.tree = a.after.tree) ∧
      ∀ a ∈ reached.head?, a.before.tree = m.tree) ∧
    (executePlan host c options plan m).1.completed =
      reached.filterMap (fun a => a.result.toOption) ∧
    (executePlan host c options plan m).1.failed = reached.findSome? Attempt.failure? ∧
    (executePlan host c options plan m).2.started = m.started ++ reached.map Attempt.task ∧
    (executePlan host c options plan m).2.launches =
      m.launches ++ reached.flatMap Attempt.launches ∧
    ∀ a ∈ reached, a.LaunchesRunner host c options.testArgs := by
  have hfront := (attempts_isPrefix (Task.perform host c options) plan m).1
  exact ⟨⟨hfront, attempts_isChain _ plan m⟩, completed_executePlan host c options plan m,
    failed_executePlan host c options plan m, started_executePlan host c options plan m,
    launches_executePlan host c options plan m,
    fun a ha => a.launchesRunner_of_exec (exec_of_mem_attempts ha)⟩

/-- A host on which every program succeeds and does nothing. -/
def quietHost : Host := ⟨[], [("PYTHONPATH", "/usr/lib"), ("LANG", "C")],
  fun _ _ t => .ok ⟨.ofCode 0, [], [], t⟩⟩

/-- A project that keeps the file for the measurement of coverage among what is built. -/
def measuredConfig : Config :=
  { Config.withRoot ⟨"/p"⟩ with
    test := { TestSettings.default with coverageConfig := ⟨"target/rc"⟩ } }

/-- The tree of that project. -/
def measured : Tree :=
  Tree.placeAll [] [.dir ⟨"/p"⟩, .dir ⟨"/p/target"⟩, .file ⟨"/p/target/rc"⟩ [] 0o644] Tree.empty

/-- Cleaning takes the file for the measurement of coverage away. -/
theorem executePlan_launches_runner_measured :
    ∃ a b d, attempts (Task.perform quietHost measuredConfig ⟨false, ["-x"]⟩)
        [.testWithCoverage, .clean, .testWithCoverage] ⟨measured, []⟩ = [a, b, d] ∧
      a.RunsTests quietHost measuredConfig true ["-x"] ∧ b.launches = [] ∧
      d.launches = [] ∧
      d.result = .error (.testing (.coverageConfigNotFound ⟨"/p/target/rc"⟩)) := by
  have hfiles : (attempts (Task.perform quietHost measuredConfig ⟨false, ["-x"]⟩)
      [.testWithCoverage, .clean, .testWithCoverage] ⟨measured, []⟩).map
        (fun a => (a.task, a.before.tree.isFile [] measuredConfig.coverageConfigPath)) =
      [(.testWithCoverage, true), (.clean, true), (.testWithCoverage, false)] := by
    decide +kernel
  obtain ⟨-, -, -, -, -, hlaunches⟩ := executePlan_launches_runner quietHost measuredConfig
    ⟨false, ["-x"]⟩ [.testWithCoverage, .clean, .testWithCoverage] ⟨measured, []⟩
  obtain ⟨a, rest, hreached, ha, hrest⟩ := List.map_eq_cons_iff.mp hfiles
  obtain ⟨b, rest, rfl, hb, hrest⟩ := List.map_eq_cons_iff.mp hrest
  obtain ⟨d, rest, rfl, hd, hrest⟩ := List.map_eq_cons_iff.mp hrest
  obtain rfl := List.map_eq_nil_iff.mp hrest
  obtain ⟨htask_a, hfile_a⟩ := Prod.mk.inj ha
  obtain ⟨htask_b, -⟩ := Prod.mk.inj hb
  obtain ⟨htask_d, hfile_d⟩ := Prod.mk.inj hd
  rw [hreached] at hlaunches
  have hruns := hlaunches a (by simp)
  have hquiet := hlaunches b (by simp)
  have hfails := hlaunches d (by simp)
  simp only [Attempt.LaunchesRunner, htask_a, htask_b, htask_d] at hruns hquiet hfails
  obtain ⟨hnothing, -, hresult⟩ := hfails.2 fun hfile =>
    Bool.false_ne_true (hfile_d.symm.trans (Tree.isFile_iff.mpr hfile))
  exact ⟨a, b, d, hreached, hruns.1 (Tree.isFile_iff.mp hfile_a), hquiet, hnothing, hresult⟩

end Zipship
