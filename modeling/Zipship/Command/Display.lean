import Zipship.Command.Line
import Zipship.Display.Digest
import Zipship.Display.Duration
import Zipship.Display.Size
import Zipship.Run.Machine
import Zipship.Task.Graph
import Zipship.Task.ReportJson

/-!
# What a command shows

Texts for people say when a task starts and what came of it, line by line. For programs there is one
JSON document at the end. What the test runner writes is shown as it is, in both cases.
-/

namespace Zipship

namespace Display

/-- A line of its own. -/
def line (s : String) : String := s ++ "\n"

/-- A task that starts. -/
def header (task : Task) : String := line ("→ " ++ task.name)

/-- Something that went well. -/
def success (s : String) : String := line ("✓ " ++ s)

/-- Something to know. -/
def note (s : String) : String := line ("• " ++ s)

/-- Something that went wrong. -/
def failure (s : String) : String := line ("✗ " ++ s)

/-- A detail of the line above. -/
def detail (label value : String) : String := line ("  " ++ label ++ ": " ++ value)

/-- What came of cleaning. -/
def cleaned (root : Path) (r : Clean.Report) : String :=
  if r.dryRun then
    note "Dry run - no changes made" ++
      String.join (r.removed.map fun p => line ("  - " ++ (root.relativeTo p).shown)) ++
      detail "Would free" (formatBytes r.bytesFreed)
  else if r.removed = [] then note "Nothing to clean"
  else
    success s!"Removed {r.removed.length} path(s)" ++
      detail "Space freed" (formatBytes r.bytesFreed)

/-- What came of packaging. -/
def packaged (root : Path) (r : Package.Report) : String :=
  success ("Built " ++ (root.relativeTo r.artifact).shown) ++
    detail "Interpreter" r.interpreter ++ detail "Entries" (toString r.entries) ++
    detail "Size" (formatBytes r.sizeBytes) ++ detail "SHA-256" (shortDigest r.sha256)

/-- What came of a task. -/
def outcome (root : Path) : Task.Outcome → String
  | .clean r => cleaned root r
  | .compile r => packaged root r
  | .test _ => success "Test suite passed"
  | .testWithCoverage _ => success "Test suite passed with coverage"

/-- What is shown of an event to people; programs are told nothing before the end. -/
def event (format : Format) (root : Path) : Event → Bytes
  | .started task => if format = .json then [] else Bytes.ofString (header task)
  | .finished o => if format = .json then [] else Bytes.ofString (outcome root o)
  | .wrote out _ => out
  | .launched _ => []

/-- What the programs of a run wrote to their second output. -/
def eventErrors : Event → Bytes
  | .wrote _ err => err
  | _ => []

/-- What is shown at the end of a run. -/
def ending (format : Format) (elapsed : Duration) (r : RunReport) : String :=
  match format with
  | .json => (r.toJson?.map fun document => line document.pretty).getD ""
  | .text => if r.isSuccess then "\n" ++ success ("Done in " ++ elapsed.format) else ""

/-- What is said when there is no document of a report. -/
def undocumented : String :=
  failure "Failed to serialize to JSON: path contains invalid UTF-8 characters"

/-- What is said about a failure. Nothing is, if it was the runner's: that has said why. A document
says it by itself, if there is one. -/
def endingErrors (format : Format) (r : RunReport) : String :=
  match format, r.failed with
  | .json, _ => if r.toJson?.isSome then "" else undocumented
  | .text, none => ""
  | .text, some f =>
    match f.error with
    | .testsFailed .. => ""
    | e => failure s!"{f.task.name} failed: {e.message}"

/-- A text with blanks behind it up to a width. -/
def paddedTo (width : Nat) (s : String) : String :=
  s ++ String.ofList (List.replicate (width - s.length) ' ')

/-- A task in the list of all tasks. -/
def taskLine (task : Task) (prerequisites : List Task) : String :=
  let after := if prerequisites = [] then ""
    else " (after " ++ String.intercalate ", " (prerequisites.map Task.name) ++ ")"
  line ("  • " ++ paddedTo 20 task.name ++ " " ++ task.description ++ after)

/-- The list of all tasks. -/
def taskList (format : Format) (g : Graph) : String :=
  if format = .json then
    let shown := Task.all.map fun t => Json.obj [("name", .task t),
      ("prerequisites", .arr ((g.prerequisites t).map .task)), ("description", .str t.description)]
    line (Json.arr shown).pretty
  else String.join (Task.all.map fun t => taskLine t (g.prerequisites t))

/-- The name and the version of the program. -/
def version : String := line "zipship 0.1.0"

/-- How the program is used. -/
def usage : String :=
  line "Usage: zipship [OPTIONS] <COMMAND>" ++ line "" ++ line "Commands:" ++
    String.join (Task.all.map fun t => line ("  " ++ paddedTo 20 t.name ++ " " ++ t.description)) ++
    line "  run                  Run several tasks in one plan, each at most once" ++
    line "  tasks                List tasks and their prerequisites"

end Display

end Zipship
