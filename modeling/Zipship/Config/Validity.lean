import Zipship.Config.Basic
import Zipship.Text.Blank
import Zipship.Text.Quoted

/-!
# Valid configurations

A configuration is used only if `fault?` finds nothing wrong with it. The checks are made in a fixed
order, and the first one that fails is reported.
-/

namespace Zipship.Config

/-- What can be wrong with a configuration. -/
inductive Fault where
  | emptyName
  /-- The name would lead out of the target directory, or deeper into it. -/
  | notFileName (name : String)
  | emptyPython
  /-- The interpreter would take more than the first line of the artifact. -/
  | multilinePython
  | emptySource
  | emptyRunner
  | emptyCoverageModule
  deriving DecidableEq, Repr

namespace Fault

/-- The wording of a fault. -/
def message : Fault → String
  | emptyName => "name must not be empty"
  | notFileName name => "name must be a plain file name, got " ++ Text.quoted name
  | emptyPython => "python must not be empty"
  | multilinePython => "python must fit on a single line"
  | emptySource => "src must not be empty"
  | emptyRunner => "test.runner must be a non-empty array"
  | emptyCoverageModule => "test.coverage_module must not be empty"

end Fault

/-- One of the characters occurs in the text. -/
def hasAny (cs : List Char) (s : String) : Bool := s.toList.any (cs.contains ·)

/-- The name cannot be that of a file in the target directory: without the blanks around it, it
stands for a directory, or it holds a separator. -/
def isNotFileName (name : String) : Bool :=
  Text.trim name = "." || Text.trim name = ".." || hasAny ['/', '\\'] name

/-- The first thing that is wrong with a configuration. -/
def fault? (c : Config) : Option Fault :=
  if Text.blank c.name then some .emptyName
  else if isNotFileName c.name then some (.notFileName c.name)
  else if Text.blank c.python then some .emptyPython
  else if hasAny ['\n', '\r'] c.python then some .multilinePython
  else if c.src.bytes.isEmpty then some .emptySource
  else if c.test.runner.head?.all Text.blank then some .emptyRunner
  else if Text.blank c.test.coverageModule then some .emptyCoverageModule
  else none

/-- Nothing is wrong with the configuration. -/
def Valid (c : Config) : Prop := c.fault? = none

instance (c : Config) : Decidable c.Valid := by unfold Valid; infer_instance

end Zipship.Config
