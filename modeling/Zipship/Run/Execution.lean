import Zipship.Run.Host

/-!
# Executing plans

The tasks of a plan are done one after another until one fails. The log shows when each task started
and what came of it.
-/

namespace Zipship

namespace Machine

/-- The machine on which one more thing happened. -/
def record (m : Machine) (e : Event) : Machine := { m with log := m.log ++ [e] }

end Machine

/-- Do the tasks of a plan in order until one fails: the outcomes until then, the failure if there
was one, and the machine that is left. -/
def execute (perform : Task → Act Task.Outcome) :
    List Task → Machine → (List Task.Outcome × Option Task.Failure) × Machine
  | [], m => (([], none), m)
  | task :: rest, m =>
    match (perform task).exec (m.record (.started task)) with
    | (.error e, m) => (([], some ⟨task, e⟩), m)
    | (.ok outcome, m) =>
      let ((outcomes, failed), m) := execute perform rest (m.record (.finished outcome))
      ((outcome :: outcomes, failed), m)

/-- Execute a plan and report on it. -/
def executePlan (host : Host) (c : Config) (options : RunOptions) (plan : List Task)
    (m : Machine) : RunReport × Machine :=
  let ((completed, failed), m) := execute (Task.perform host c options) plan m
  (⟨plan, completed, failed⟩, m)

end Zipship
