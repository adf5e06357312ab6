import Zipship.Config.Error
import Zipship.Config.Schema
import Zipship.Toml.Document
import Zipship.Tree.Resolve
import Zipship.Tree.Edit

/-!
# Loading a configuration

The layers of a configuration are, from the lowest: the defaults, the project's file, the
environment, and what the caller gives. Each setting is taken from the highest layer that has it;
the root is the project directory in its canonical spelling. Only the result is checked for faults.
-/

namespace Zipship.Config

/-- Settings that replace those of the layers below. -/
structure Overrides where
  python : Option String
  name : Option String
  src : Option Path
  deriving DecidableEq, Repr

namespace Overrides

/-- Replace nothing. -/
def none : Overrides := ⟨.none, .none, .none⟩

/-- Replace what is given. -/
def apply (o : Overrides) (c : Config) : Config :=
  { c with
    python := o.python.getD c.python
    name := o.name.getD c.name
    src := o.src.getD c.src }

end Overrides

end Config

/-- The variables that a process starts with: their names and their values. -/
abbrev Environment := List (Bytes × Bytes)

namespace Environment

/-- The value of a variable. -/
def get? (env : Environment) (key : Bytes) : Option Bytes := env.lookup key

/-- The value of a variable if it is a text in which there is something to see. -/
def getVisible? (env : Environment) (key : Bytes) : Option String :=
  ((env.get? key).bind Bytes.toString?).filter fun value => !Text.blank value

/-- The same variables with some of them set. -/
def set (env : Environment) (key value : Bytes) : Environment :=
  (env.filter fun e => e.1 ≠ key) ++ [(key, value)]

/-- What the environment sets in a configuration. -/
def overrides (env : Environment) : Config.Overrides where
  python := env.getVisible? "ZIPSHIP_PYTHON"
  name := env.getVisible? "ZIPSHIP_NAME"
  src := (env.getVisible? "ZIPSHIP_SRC").map fun (src : String) => ⟨src⟩

end Environment

namespace Config

/-- The configuration that a document describes. -/
def ofText (file : Path) (text : String) : Except Error Config :=
  match Toml.parse? text with
  | none => .error (.malformed file)
  | some table => (ofTable table).mapError fun e => .unfit file e.message

/-- The configuration in a file; the default one if there is none. -/
def ofFile (t : Tree) (cwd : Loc) (file : Path) : Except Error Config :=
  if t.exists? cwd file then do
    let content ← (t.read cwd file).mapError (.read file)
    match content.toString? with
    | none => .error (.read file .notText)
    | some text => ofText file text
  else .ok default

/-- The configuration of the project in a directory. -/
def load (t : Tree) (cwd : Loc) (env : Environment) (dir : Path) (given : Overrides) :
    Except Error Config := do
  let (_, root) ← (t.canonicalize cwd dir).mapError (.root dir)
  let file ← ofFile t cwd (root.child fileName)
  let merged := given.apply (env.overrides.apply { file with root })
  match merged.fault? with
  | some fault => .error (.invalid fault)
  | none => return merged

end Config

end Zipship
