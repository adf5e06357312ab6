/-!
# Tasks

There are four tasks. Packaging and both ways of running the tests need a clean project first.
-/

namespace Zipship

/-- Something that can be done with a project. -/
inductive Task where
  | clean
  | compile
  | test
  | testWithCoverage
  deriving DecidableEq, Repr, Inhabited

namespace Task

/-- All tasks, in the order in which they are listed. -/
def all : List Task := [clean, compile, test, testWithCoverage]

theorem mem_all (t : Task) : t ∈ all := by cases t <;> decide

/-- The name that a task is asked for by. -/
def name : Task → String
  | clean => "clean"
  | compile => "compile"
  | test => "test"
  | testWithCoverage => "test-with-coverage"

/-- What a task does, in one line. -/
def description : Task → String
  | clean => "Remove build output, CI scratch, bytecode caches and coverage data"
  | compile => "Package the source directory into a self-executing archive"
  | test => "Run the test suite with bytecode caching disabled"
  | testWithCoverage => "Run the test suite with coverage measurement"

/-- The tasks that have to be done before a task. -/
def prerequisites : Task → List Task
  | clean => []
  | compile | test | testWithCoverage => [clean]

/-- The task of a name. -/
def ofName? (name : String) : Option Task := all.find? fun t => t.name = name

/-- Every task is found by its name. -/
theorem ofName?_name (t : Task) : ofName? t.name = some t := by cases t <;> decide

/-- What somebody is told who asks for a task that there is not. -/
def unknownMessage (name : String) : String :=
  let names := String.intercalate ", " (all.map Task.name)
  s!"unknown task '{name}' (expected one of: {names})"

end Task

end Zipship
