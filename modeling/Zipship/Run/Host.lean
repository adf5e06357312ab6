import Zipship.Clean.Run
import Zipship.Package.Run
import Zipship.Run.Machine
import Zipship.Testing.Invocation

/-!
# Doing tasks

Each task is done by the part of the library that knows it. Running the tests fails when the runner
cannot be launched, and the task fails also when the runner does not succeed.
-/

namespace Zipship

/-- What surrounds a run: the working directory, the variables, and what launching a program does.
-/
structure Host where
  cwd : Loc
  env : Environment
  launcher : Launcher

/-- What a run is asked for beside its tasks. -/
structure RunOptions where
  /-- Cleaning only reports what it would remove. -/
  dryRun : Bool
  /-- Arguments for the runner behind the configured ones. -/
  testArgs : List String
  deriving DecidableEq, Repr

namespace Invocation

/-- The launch of an invocation by somebody with the variables `env`. -/
def toLaunch (i : Invocation) (env : Environment) : Launch :=
  ⟨i.program, i.args, i.env.foldl (fun env e => env.set e.1 e.2) env, i.cwd⟩

end Invocation

namespace Testing

/-- What measures coverage needs its file. -/
def checkCoverageConfig (cwd : Loc) (c : Config) (t : Tree) : Except Error Unit :=
  if t.isFile cwd c.coverageConfigPath then .ok ⟨⟩
  else .error (.coverageConfigNotFound c.coverageConfigPath)

/-- The report on a runner that ended. -/
def reportOf (i : Invocation) (coverage : Bool) (status : WaitStatus) : Report :=
  ⟨i.commandLine, coverage, status.success, status.exitCode⟩

/-- Run the tests of a project once. -/
def run (host : Host) (c : Config) (coverage : Bool) (extra : List String) : Act Report := do
  if coverage then
    Act.onTree (Edit.inspect (checkCoverageConfig host.cwd c)) .testing
  let i := Invocation.ofConfig c coverage extra
  let status ← Act.launch host.launcher (i.toLaunch host.env) fun e => .testing (.spawn i.program e)
  return reportOf i coverage status

end Testing

namespace Task

/-- The report of a runner, unless it did not succeed. -/
def succeeded (task : Task) (r : Testing.Report) : Act Testing.Report :=
  if r.success then pure r else throw (.testsFailed task r.exitCode)

/-- Do a task, without what it needs. -/
def perform (host : Host) (c : Config) (options : RunOptions) : Task → Act Outcome
  | .clean => do
    return .clean (← Act.onTree (Clean.run host.cwd c options.dryRun) .clean)
  | .compile => do
    return .compile (← Act.onTree (Package.run host.cwd c) .package)
  | .test => do
    return .test (← succeeded .test (← Testing.run host c false options.testArgs))
  | .testWithCoverage => do
    return .testWithCoverage
      (← succeeded .testWithCoverage (← Testing.run host c true options.testArgs))

end Task

end Zipship
