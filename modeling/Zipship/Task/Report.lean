import Zipship.Clean.Report
import Zipship.Package.Report
import Zipship.Task.Basic
import Zipship.Testing.Report

/-!
# What a run tells

A run goes through a plan until a task fails. Its report holds the plan, the outcome of every task
that was completed, and the failure if there was one.
-/

namespace Zipship

namespace Task

/-- What came of a task. -/
inductive Outcome where
  | clean (report : Clean.Report)
  | compile (report : Package.Report)
  | test (report : Testing.Report)
  | testWithCoverage (report : Testing.Report)
  deriving DecidableEq, Repr

/-- The task that had the outcome. -/
def Outcome.task : Outcome → Task
  | clean _ => .clean
  | compile _ => .compile
  | test _ => .test
  | testWithCoverage _ => .testWithCoverage

/-- Why a task failed, or could not be planned. -/
inductive Error where
  | clean (e : Clean.Error)
  | package (e : Package.Error)
  | testing (e : Testing.Error)
  /-- The runner ran and did not succeed. -/
  | testsFailed (task : Task) (code : Int)
  | cycleDetected (task : Task)
  deriving DecidableEq, Repr

namespace Error

/-- The wording of an error. -/
def message : Error → String
  | clean e => e.message
  | package e => e.message
  | testing e => e.message
  | testsFailed task code => s!"{task.name} exited with status {code}"
  | cycleDetected task => s!"dependency cycle detected at task {task.name}"

/-- The code that a process ends with because of the error. -/
def exitCode : Error → Int
  | testsFailed _ code => code
  | _ => 1

end Error

/-- The task that stopped a run, and why. -/
structure Failure where
  task : Task
  error : Error
  deriving DecidableEq, Repr

end Task

/-- The report of a run. -/
structure RunReport where
  plan : List Task
  completed : List Task.Outcome
  failed : Option Task.Failure
  deriving DecidableEq, Repr

namespace RunReport

/-- No task failed. -/
def isSuccess (r : RunReport) : Bool := r.failed.isNone

/-- The code that a process ends with after the run. -/
def exitCode (r : RunReport) : Int := (r.failed.map fun f => f.error.exitCode).getD 0

end RunReport

end Zipship
