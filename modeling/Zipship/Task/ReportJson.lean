import Zipship.Json.Printer
import Zipship.Task.Report

/-!
# Reports in JSON

The outcome of a task is an object whose first field names the task. A failure shows the wording of
its error and the exit code. A document is text, so a path that is none cannot be part of it: then
there is no document at all.
-/

namespace Zipship

namespace Json

/-- A path, if it is a text. -/
def path? (p : Path) : Option Json := p.bytes.toString?.map str

/-- The name of a task. -/
def task (t : Task) : Json := str t.name

end Json

/-- The fields of a report on cleaning. -/
def Clean.Report.fields? (r : Clean.Report) : Option (List (String × Json)) :=
  (r.removed.mapM Json.path?).map fun removed =>
    [("removed", .arr removed), ("bytes_freed", .nat r.bytesFreed), ("dry_run", .bool r.dryRun)]

/-- The fields of a report on packaging. -/
def Package.Report.fields? (r : Package.Report) : Option (List (String × Json)) :=
  (Json.path? r.artifact).map fun artifact =>
    [("artifact", artifact), ("interpreter", .str r.interpreter), ("entries", .nat r.entries),
     ("size_bytes", .nat r.sizeBytes), ("sha256", .str r.sha256),
     ("has_entry_point", .bool r.hasEntryPoint)]

/-- The fields of a report on running the tests. -/
def Testing.Report.fields (r : Testing.Report) : List (String × Json) :=
  [("command", .str r.command), ("coverage", .bool r.coverage), ("success", .bool r.success),
   ("exit_code", .int r.exitCode)]

/-- The fields of an outcome other than the name of its task. -/
def Task.Outcome.fields? : Task.Outcome → Option (List (String × Json))
  | clean r => r.fields?
  | compile r => r.fields?
  | test r | testWithCoverage r => some r.fields

/-- An outcome with the name of its task in front. -/
def Task.Outcome.toJson? (o : Task.Outcome) : Option Json :=
  o.fields?.map fun fields => .obj (("task", .task o.task) :: fields)

/-- A failure as somebody is told about it. -/
def Task.Failure.toJson (f : Task.Failure) : Json :=
  .obj [("task", .task f.task), ("message", .str f.error.message),
    ("exit_code", .int f.error.exitCode)]

/-- A report with the fields in the order in which a run fills them. -/
def RunReport.toJson? (r : RunReport) : Option Json :=
  (r.completed.mapM Task.Outcome.toJson?).map fun completed =>
    .obj [("plan", .arr (r.plan.map .task)), ("completed", .arr completed),
      ("failed", (r.failed.map (·.toJson)).getD .null)]

end Zipship
