import Zipship.Clean.Report
import Zipship.Config.Basic
import Zipship.Tree.Bytecode
import Zipship.Tree.Edit

/-!
# Cleaning a project

Three places directly in the project are removed whatever they are, then every compiled file and
every directory of compiled files below the project, links not followed. What is already gone is
passed over. A dry run looks at the same places and removes nothing.
-/

namespace Zipship

/-- The bytes of the files below the directory at a location, which has the path `p`. A file counts
only if the operating system takes its path. -/
def Tree.bytesBelow (t : Tree) (p : Path) (l : Loc) : Nat :=
  ((t.below l).filter fun e => (checkPath (p.descend e.1)).isOk).foldr
    (fun e n => e.2.fileSize + n) 0

/-- The bytes that are counted as freed when what stands at a location, which has the path `p`, is
removed: those of the files in a directory, the length of a file or of the text of a link. -/
def Tree.sizeAt (t : Tree) (p : Path) (l : Loc) : Nat :=
  match t.get? l with
  | some .dir => t.bytesBelow p l
  | some n => n.size
  | none => 0

namespace Clean

/-- The names of the places directly in a project that are removed whatever they are, in the order
in which they are removed. -/
def fixedNames : List Name := [Config.localCiName, Config.targetName, Config.coverageDataName]

/-- The places directly in a project that are removed whatever they are. -/
def fixedTargets (root : Path) : List Path := fixedNames.map root.child

/-- What is found at one entry of the directory that `names` lead to. A directory that is removed as
a whole is not gone into; `search` goes on in every other one. -/
def cachesAt (t : Tree) (root : Loc) (search : List Name → List (List Name)) (names : List Name)
    (name : Name) : List (List Name) :=
  match t.get? (root ++ (names ++ [name])) with
  | some .dir =>
    if names ++ [name] ∈ fixedNames.map fun fixed => [fixed] then []
    else if name = Name.cacheDirectory then [names ++ [name]]
    else search (names ++ [name])
  | some _ => if name.isBytecode then [names ++ [name]] else []
  | none => []

/-- What an interpreter made in the directory that `names` lead to from `root`, by the names that
lead there: each directory before what is in it, and siblings in byte order. The fuel bounds the
depth. -/
def cachesIn (t : Tree) (root : Loc) : Nat → List Name → List (List Name)
  | 0, _ => []
  | fuel + 1, names =>
    (t.sortedChildren (root ++ names)).flatMap (cachesAt t root (cachesIn t root fuel) names)

/-- What an interpreter made below a location. No directory is deeper than there are entries. -/
def cachesBelow (t : Tree) (root : Loc) : List (List Name) := cachesIn t root t.entries.length []

/-- The search does not turn back on the way to a directory, nor there. -/
def isEntered (names : List Name) : Bool :=
  names.head?.all (· ∉ fixedNames) && names.all (· ≠ Name.cacheDirectory)

/-- The directories that the search goes into from the directory that `names` lead to, each before
those in it, and siblings in byte order. The fuel bounds the depth. -/
def enteredIn (t : Tree) (root : Loc) : Nat → List Name → List (List Name)
  | 0, _ => []
  | fuel + 1, names =>
    (t.sortedChildren (root ++ names)).flatMap fun name =>
      let names := names ++ [name]
      if t.get? (root ++ names) = some .dir && isEntered names then
        names :: enteredIn t root fuel names
      else []

/-- The directories below a location that the search goes into. -/
def enteredBelow (t : Tree) (root : Loc) : List (List Name) :=
  enteredIn t root t.entries.length []

/-- The search could not go through a directory. -/
def scanError (p : Path) (cause : OsError) : Error :=
  .scan p s!"IO error for operation on {p.shown}: {cause.message}"

/-- What an interpreter made below the project directory. The search fails at the first directory
that it cannot open under its path. -/
def caches (cwd : Loc) (root : Path) (t : Tree) : Except Error (List Path) :=
  match t.resolve cwd root with
  | .ok pos => do
    ((enteredBelow t pos.loc).map root.descend).forM fun p =>
      (Tree.checkPath p).mapError (scanError p)
    return (cachesBelow t pos.loc).map root.descend
  | .error e => if e = .notFound then .ok [] else .error (scanError root e)

/-- Remove what a path names, unless this is a dry run, and say how many bytes that frees; `none` if
nothing is there. -/
def sweep (cwd : Loc) (dryRun : Bool) (p : Path) : Edit Error (Option Nat) := do
  match (← get).locate cwd p with
  | .error e => if e = .notFound then return none else throw (.delete p e)
  | .ok l =>
    let size := (← get).sizeAt p l
    if dryRun then return some size
    Edit.onError (Edit.step (Tree.removeAll cwd p)) (.delete p)
    return some size

/-- Sweep some paths, and list those where something was, with the bytes that were freed. -/
def sweepAll (cwd : Loc) (dryRun : Bool) : List Path → Edit Error (List (Path × Nat))
  | [] => return []
  | p :: rest => do
    let size ← sweep cwd dryRun p
    let swept ← sweepAll cwd dryRun rest
    return (size.map fun n => (p, n)).toList ++ swept

/-- Clean a project. -/
def run (cwd : Loc) (c : Config) (dryRun : Bool) : Edit Error Report := do
  let fixed ← sweepAll cwd dryRun (fixedTargets c.root)
  let paths ← Edit.inspect (caches cwd c.root)
  let swept ← sweepAll cwd dryRun paths
  let all := fixed ++ swept
  return ⟨all.map Prod.fst, all.foldr (fun e freed => e.2 + freed) 0, dryRun⟩

end Clean

end Zipship
