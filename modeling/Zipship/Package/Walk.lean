import Zipship.Tree.Edit

/-!
# Walking a directory through links

A walk lists what is below a directory, each directory before its contents and siblings in byte
order of their names. Links are followed: what a link leads to is listed under the link's own path.
The caller may leave entries out, and with a directory everything in it.

A walk ends at the first link that leads nowhere, or back to a directory that the walk is in. Both
are noticed before the caller is asked about the entry. It also ends behind an entry that cannot be
opened under the path that the walk has for it. What was listed until then is kept.
-/

namespace Zipship.Package

/-- Something that a walk lists: the names that lead to it, where it really is, and what it is. -/
structure Visit where
  names : List Name
  loc : Loc
  node : Node
  deriving DecidableEq, Repr

/-- Why a walk ended early. -/
inductive Walk.Fault where
  /-- A link could not be followed. -/
  | unreachable (names : List Name) (cause : OsError)
  /-- A link leads to a directory that the walk is in. -/
  | loop (names ancestor : List Name)
  /-- A file could not be opened. -/
  | unopened (names : List Name) (cause : OsError)
  deriving DecidableEq, Repr

/-- What a walk listed, and why it ended if that was early. -/
structure Walk where
  visits : List Visit
  fault : Option Walk.Fault
  deriving DecidableEq, Repr

namespace Walk

/-- The names that lead to where a walk ended early. -/
def Fault.names : Fault → List Name
  | unreachable names _ | loop names _ | unopened names _ => names

/-- The wording of a fault of a walk from `source`. -/
def Fault.message (source : Path) : Fault → String
  | unreachable names cause | unopened names cause =>
    s!"IO error for operation on {(source.descend names).shown}: {cause.message}"
  | loop names ancestor =>
    let link := (source.descend names).shown
    let target := (source.descend ancestor).shown
    s!"File system loop found: {link} points to an ancestor {target}"

/-- A walk that lists nothing. -/
def empty : Walk := ⟨[], none⟩

/-- The second walk behind the first one, unless that ended early. -/
def followedBy (a : Walk) (b : Walk) : Walk :=
  match a.fault with
  | some _ => a
  | none => ⟨a.visits ++ b.visits, b.fault⟩

/-- The walks one after another, up to the first one that ends early. -/
def chain : List Walk → Walk
  | [] => empty
  | a :: rest => a.followedBy (chain rest)

/-- The directories that a walk is in, innermost first, with the names that lead to them. -/
abbrev Ancestors := List (List Name × Loc)

/-- What stands under a name in a directory, and where it really is. -/
def look (t : Tree) (cwd : Loc) (source : Path) (above : Ancestors) (dir : Loc)
    (names : List Name) (name : Name) : Except Fault (Loc × Node) :=
  match t.get? (dir ++ [name]) with
  | some (.link _) =>
    match t.resolve cwd (source.descend names) with
    | .error e => .error (.unreachable names e)
    | .ok pos =>
      match t.get? pos.loc, above.find? fun a => a.2 = pos.loc with
      | some .dir, some a => .error (.loop names a.1)
      | some node, _ => .ok (pos.loc, node)
      | none, _ => .error (.unreachable names .notFound)
  | some node => .ok (dir ++ [name], node)
  | none => .error (.unreachable names .notFound)

/-- What an entry adds by itself. One that cannot be opened under its path is listed and ends the
walk: of a file nothing is known then, and a directory lists nothing. -/
def visit (source : Path) (names : List Name) (loc : Loc) (node : Node) : Walk :=
  match Tree.checkPath (source.descend names), node with
  | .ok _, _ => ⟨[⟨names, loc, node⟩], none⟩
  | .error e, .dir => ⟨[⟨names, loc, .dir⟩], some (.unreachable names e)⟩
  | .error e, _ => ⟨[⟨names, loc, .file [] 0⟩], some (.unopened names e)⟩

/-- The walk of the directory at `dir`, which `names` lead to; `fuel` bounds the depth. -/
def ofDir (t : Tree) (cwd : Loc) (source : Path) (skip : List Name → Node → Bool) :
    Nat → Ancestors → List Name → Loc → Walk
  | 0, _, _, _ => empty
  | fuel + 1, above, names, dir =>
    let above := (names, dir) :: above
    chain ((t.sortedChildren dir).map fun name =>
      let names := names ++ [name]
      match look t cwd source above dir names name with
      | .error fault => ⟨[], some fault⟩
      | .ok (loc, node) =>
        if skip names node then empty
        else (visit source names loc node).followedBy
          (if node = .dir then ofDir t cwd source skip fuel above names loc else empty))

/-- How deep a walk can go: between two links it goes down at most all directories, and no two links
on its way lead to the same one. -/
def depthBound (t : Tree) : Nat := (t.entries.length + 1) * (t.entries.length + 1)

/-- The walk from `source`; nothing is listed if that is not a directory. -/
def ofSource (t : Tree) (cwd : Loc) (source : Path) (skip : List Name → Node → Bool) : Walk :=
  match t.resolve cwd source with
  | .error e => ⟨[], some (.unreachable [] e)⟩
  | .ok pos =>
    if t.get? pos.loc = some .dir then ofDir t cwd source skip (depthBound t) [] [] pos.loc
    else empty

end Walk

end Zipship.Package
