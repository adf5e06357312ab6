import Zipship.Config.Basic

/-!
# Starting the test runner

An `Invocation` says how the runner of a project is started: the program, its arguments, the
variables that are set for it, and the directory it works in.
-/

namespace Zipship

/-- How a program is started. -/
structure Invocation where
  program : String
  args : List String
  /-- The variables that are set on top of those that are there. -/
  env : List (String × Bytes)
  cwd : Path
  deriving DecidableEq, Repr

namespace Invocation

/-- The variable that keeps the interpreter from compiling modules to disk. -/
def dontWriteBytecode : String := "PYTHONDONTWRITEBYTECODE"

/-- The variable that says where modules are imported from. -/
def searchPath : String := "PYTHONPATH"

/-- The arguments that ask for the measurement of coverage. -/
def coverageArgs (c : Config) : List String :=
  ["--cov=" ++ c.test.coverageModule, "--cov-report=term-missing",
   "--cov-config=" ++ c.test.coverageConfig.shown]

/-- How the runner of a project is started, with or without the measurement of coverage and with
more arguments at the end. -/
def ofConfig (c : Config) (coverage : Bool) (extra : List String) : Invocation where
  program := c.test.runner.head?.getD ""
  args := c.test.runner.tail ++ (if coverage then coverageArgs c else []) ++ c.test.args ++ extra
  env := [(dontWriteBytecode, "1"), (searchPath, c.src.bytes)]
  cwd := c.root

/-- The invocation as one line. -/
def commandLine (i : Invocation) : String :=
  String.intercalate " " ((i.env.map fun e => e.1 ++ "=" ++ e.2.shown) ++ i.program :: i.args)

end Invocation

end Zipship
