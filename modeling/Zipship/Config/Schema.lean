import Zipship.Config.Basic
import Zipship.Text.Quoted
import Zipship.Toml.Value

/-!
# Configurations in documents

`ofTable` reads a configuration from a table. Every setting may be missing and then has its default.
Keys are taken in byte order, and the first thing that does not fit is reported: a key that no
setting has, or a value of the wrong shape. The settings of the tests may also be given as a list,
in the order in which they are declared.
-/

namespace Zipship

open Toml (Value Table)

namespace Config

/-- The shapes that a value is asked for, as messages call them. -/
inductive Shape where
  | text
  | path
  | list
  | testSettings
  deriving DecidableEq, Repr

namespace Shape

/-- How a message calls the shape. -/
def message : Shape → String
  | text => "a string"
  | path => "path string"
  | list => "a sequence"
  | testSettings => "struct TestConfig"

end Shape

/-- Why a table is not a configuration. -/
inductive Unfit where
  /-- A key that is none of the known ones. -/
  | unknownKey (key : String) (known : List String)
  | wrongShape (found : Value) (wanted : Shape)
  deriving Repr

namespace Unfit

/-- How a message calls a value. -/
def describe : Value → String
  | .string s => "string " ++ Text.quoted s
  | .integer n => s!"integer `{n}`"
  | .real x => s!"floating point `{x.text}`"
  | .boolean b => s!"boolean `{b}`"
  | .date _ | .table _ => "map"
  | .array _ => "sequence"

/-- The wording of what does not fit. -/
def message : Unfit → String
  | unknownKey key known =>
    let quoted := known.map fun k => "`" ++ k ++ "`"
    s!"unknown field `{key}`, expected one of " ++ String.intercalate ", " quoted
  | wrongShape found wanted => s!"invalid type: {describe found}, expected {wanted.message}"

end Unfit

/-- A text. -/
def readText : Value → Except Unfit String
  | .string s => .ok s
  | v => .error (.wrongShape v .text)

/-- A path. -/
def readPath : Value → Except Unfit Path
  | .string s => .ok ⟨s⟩
  | v => .error (.wrongShape v .path)

/-- A list of texts. -/
def readTexts : Value → Except Unfit (List String)
  | .array items => items.mapM readText
  | v => .error (.wrongShape v .list)

end Config

namespace TestSettings

open Config

/-- The keys of the settings, in the order in which they are declared. -/
def keys : List String := ["runner", "args", "coverage_module", "coverage_config"]

/-- The key under which a document keeps a date. -/
def dateKey : String := "$__toml_private_datetime"

/-- Set what a key stands for. -/
def set (settings : TestSettings) (key : String) (v : Value) : Except Unfit TestSettings :=
  match key with
  | "runner" => return { settings with runner := ← readTexts v }
  | "args" => return { settings with args := ← readTexts v }
  | "coverage_module" => return { settings with coverageModule := ← readText v }
  | "coverage_config" => return { settings with coverageConfig := ← readPath v }
  | _ => .error (.unknownKey key keys)

/-- Set what each of some keys stands for. -/
def setAll (settings : TestSettings) (entries : Table) : Except Unfit TestSettings :=
  entries.foldlM (fun s e => s.set e.1 e.2) settings

end TestSettings

namespace Config

/-- The entries of a table in byte order of their keys. -/
def inKeyOrder (t : Table) : Table := t.mergeSort fun a b => a.1 ≤ b.1

/-- The settings of the tests. -/
def readTestSettings : Value → Except Unfit TestSettings
  | .table entries => TestSettings.default.setAll (inKeyOrder entries)
  | .array items => TestSettings.default.setAll (TestSettings.keys.zip items)
  | .date _ => .error (.unknownKey TestSettings.dateKey TestSettings.keys)
  | v => .error (.wrongShape v .testSettings)

/-- The keys of a configuration. -/
def keys : List String := ["python", "name", "src", "test"]

/-- Set what a key stands for. -/
def set (c : Config) (key : String) (v : Value) : Except Unfit Config :=
  match key with
  | "python" => return { c with python := ← readText v }
  | "name" => return { c with name := ← readText v }
  | "src" => return { c with src := ← readPath v }
  | "test" => return { c with test := ← readTestSettings v }
  | _ => .error (.unknownKey key keys)

/-- The configuration that a table describes. -/
def ofTable (t : Table) : Except Unfit Config :=
  (inKeyOrder t).foldlM (fun c e => c.set e.1 e.2) default

end Config

end Zipship
