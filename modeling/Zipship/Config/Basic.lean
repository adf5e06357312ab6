import Zipship.Path.Basic

/-!
# The configuration of a project

A `Config` says where a project is, which directory is packaged under which name for which
interpreter, and how its tests are run. The paths that follow from it are spelled, not resolved:
`sourceDir`, `targetDir`, `artifactPath`, `archivePath` and `coverageConfigPath` join the configured
parts to the root.
-/

namespace Zipship

/-- How the tests of a project are run. -/
structure TestSettings where
  /-- The program that runs the tests, and the arguments that always come first. -/
  runner : List String
  /-- Arguments that are added to every run. -/
  args : List String
  /-- The module whose coverage is measured. -/
  coverageModule : String
  /-- The file that configures the measurement. -/
  coverageConfig : Path
  deriving DecidableEq, Repr

/-- The configuration of a project. -/
structure Config where
  /-- The directory that every relative path of the configuration starts from. -/
  root : Path
  /-- The interpreter named in the first line of the artifact. -/
  python : String
  /-- The file name of the artifact. -/
  name : String
  /-- The directory that is packaged, and that the tests import from. -/
  src : Path
  test : TestSettings
  deriving DecidableEq, Repr

namespace TestSettings

/-- The settings of a project that says nothing about its tests. -/
def default : TestSettings where
  runner := ["pytest"]
  args := []
  coverageModule := "templates"
  coverageConfig := ⟨".coveragerc"⟩

end TestSettings

namespace Config

/-- The configuration of a project at `root` that says nothing about itself. -/
def withRoot (root : Path) : Config where
  root := root
  python := "/usr/bin/env python3"
  name := "templates"
  src := ⟨"src"⟩
  test := .default

/-- The configuration of a project at the working directory that says nothing about itself. -/
def default : Config := withRoot ⟨"."⟩

/-- The name of the directory for build output. -/
def targetName : Name := "target"

/-- The name of the directory where a local continuous integration run works. -/
def localCiName : Name := ".local-ci"

/-- The name of the file where coverage data is kept. -/
def coverageDataName : Name := ".coverage"

/-- The name of the file that holds the configuration. -/
def fileName : Name := "zipship.toml"

/-- The directory that is packaged. -/
def sourceDir (c : Config) : Path := c.root.join c.src

/-- The directory for build output. -/
def targetDir (c : Config) : Path := c.root.child targetName

/-- The packaged program. -/
def artifactPath (c : Config) : Path := c.targetDir.child c.name

/-- The archive that the artifact is made from. -/
def archivePath (c : Config) : Path := c.targetDir.child (c.name ++ ".zip")

/-- The file that configures the measurement of coverage. -/
def coverageConfigPath (c : Config) : Path := c.root.join c.test.coverageConfig

/-- The first line of the artifact, with its end. -/
def shebang (c : Config) : String := "#!" ++ c.python ++ "\n"

end Config

end Zipship
