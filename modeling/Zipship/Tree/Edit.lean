import Zipship.Tree.Resolve

/-!
# Changing file trees

An `Edit` is a computation on a tree that may fail. What it did before it failed stays done, as on
a real machine. The operations here are the steps of such computations: each of them fails and
changes nothing, or succeeds.
-/

namespace Zipship

/-- A computation on a tree that may fail with an `ε`, keeping the changes it made until then. -/
abbrev Edit (ε α : Type) := ExceptT ε (StateM Tree) α

namespace Edit

/-- The outcome of a computation and the tree it leaves. -/
def exec {ε α : Type} (e : Edit ε α) (t : Tree) : Except ε α × Tree := e.run t

/-- A look at the tree that may fail. -/
def inspect {ε α : Type} (look : Tree → Except ε α) : Edit ε α := fun t => (look t, t)

/-- One step: it fails and changes nothing, or gives a value and a tree. -/
def step {ε α : Type} (change : Tree → Except ε (α × Tree)) : Edit ε α := fun t =>
  match change t with
  | .ok (a, t') => (.ok a, t')
  | .error e => (.error e, t)

/-- The same computation with its failures put in other words. -/
def onError {ε δ α : Type} (e : Edit ε α) (wording : ε → δ) : Edit δ α := fun t =>
  match e.exec t with
  | (.ok a, t') => (.ok a, t')
  | (.error err, t') => (.error (wording err), t')

section Laws

variable {ε δ α β : Type}

@[simp] theorem exec_pure (a : α) (t : Tree) : (pure a : Edit ε α).exec t = (.ok a, t) := rfl

@[simp] theorem exec_throw (e : ε) (t : Tree) :
    (throw e : Edit ε α).exec t = (.error e, t) := rfl

theorem exec_bind (x : Edit ε α) (f : α → Edit ε β) (t : Tree) :
    (x >>= f).exec t = match x.exec t with
      | (.ok a, t') => (f a).exec t'
      | (.error e, t') => (.error e, t') := by
  show (ExceptT.bind x f).run t = _
  simp only [ExceptT.bind, ExceptT.run, ExceptT.mk, exec]
  show (ExceptT.bindCont f (x t).1) (x t).2 = _
  rcases x t with ⟨_ | a, t'⟩ <;> rfl

@[simp] theorem exec_inspect (look : Tree → Except ε α) (t : Tree) :
    (inspect look).exec t = (look t, t) := rfl

theorem exec_step (change : Tree → Except ε (α × Tree)) (t : Tree) :
    (step change).exec t = match change t with
      | .ok (a, t') => (.ok a, t')
      | .error e => (.error e, t) := rfl

theorem exec_onError (e : Edit ε α) (wording : ε → δ) (t : Tree) :
    (e.onError wording).exec t = match e.exec t with
      | (.ok a, t') => (.ok a, t')
      | (.error err, t') => (.error (wording err), t') := rfl

end Laws

end Edit

namespace Tree

/-- The permission bits of a new file. -/
def newFileMode : Nat := 0o644

/-- The place where opening a path for writing creates or empties a file. A link is followed even
when nothing stands where it leads; `fuel` bounds how often. -/
def creationSpot (t : Tree) : Nat → Nat → Loc → List Name → Except OsError Loc
  | 0, _, _, _ => .error .tooManyLinks
  | fuel + 1, links, start, route => do
    match ← t.resolveLast links start route with
    | (_, none) => .error .isDirectory
    | (pos, some last) =>
      match t.get? (pos.loc ++ [last]) with
      | some .dir => .error .isDirectory
      | some (.link target) =>
        match pos.links with
        | 0 => .error .tooManyLinks
        | left + 1 => t.creationSpot fuel left (target.start pos.loc) target.route
      | _ => .ok (pos.loc ++ [last])

/-- Create a file, or empty the one that is there, and say where it is. -/
def create (cwd : Loc) (p : Path) (t : Tree) : Except OsError (Loc × Tree) := do
  checkPath p
  if p.endsWithSlash then
    let _ ← t.follow maxLinks (p.start cwd) (p.pieces.dropLast ++ [Name.here])
    .error .isDirectory
  else
    let l ← t.creationSpot (maxLinks + 1) maxLinks (p.start cwd) p.route
    match t.get? l with
    | some (.file _ mode) => return (l, t.put l (.file [] mode))
    | none => return (l, t.put l (.file [] newFileMode))
    | some _ => return (l, t)

/-- Make `content` the content of the open file at a location. -/
def write (l : Loc) (content : Bytes) (t : Tree) : Except OsError (Unit × Tree) :=
  match t.get? l with
  | some (.file _ mode) => .ok (⟨⟩, t.put l (.file content mode))
  | some (.device .full) => if content.isEmpty then .ok (⟨⟩, t) else .error .noSpace
  | _ => .ok (⟨⟩, t)

/-- The content of what a path leads to. Of the devices one holds nothing, and one has no end. -/
def read (t : Tree) (cwd : Loc) (p : Path) : Except OsError Bytes := do
  match ← t.stat cwd p with
  | .file content _ => return content
  | .dir => .error .isDirectory
  | .device .full => .error .endless
  | _ => return []

/-- Set the permission bits of the file that a path leads to. -/
def setMode (cwd : Loc) (p : Path) (mode : Nat) (t : Tree) : Except OsError (Unit × Tree) := do
  let pos ← t.resolve cwd p
  match t.get? pos.loc with
  | some (.file content _) => return (⟨⟩, t.put pos.loc (.file content mode))
  | some _ => return (⟨⟩, t)
  | none => .error .notFound

/-- Make one directory. -/
def makeDir (cwd : Loc) (p : Path) (t : Tree) : Except OsError (Unit × Tree) := do
  checkPath p
  match ← t.resolveLast maxLinks (p.start cwd) p.pieces with
  | (_, none) => .error .alreadyExists
  | (pos, some last) =>
    if (t.get? (pos.loc ++ [last])).isSome then .error .alreadyExists
    else return (⟨⟩, t.put (pos.loc ++ [last]) .dir)

/-- Make a directory and those above it that are missing; `fuel` bounds how many. -/
def makeDirAllAux (cwd : Loc) : Nat → Path → Edit OsError Unit
  | 0, _ => throw .notFound
  | fuel + 1, p =>
    if p.bytes.isEmpty then pure ⟨⟩
    else do
      let t ← get
      match makeDir cwd p t with
      | .ok (_, t') => set t'
      | .error e =>
        if e = .notFound then
          match p.parent? with
          | none => throw e
          | some above =>
            makeDirAllAux cwd fuel above
            let t ← get
            match makeDir cwd p t with
            | .ok (_, t') => set t'
            | .error e => if t.isDir cwd p then pure ⟨⟩ else throw e
        else if t.isDir cwd p then pure ⟨⟩
        else throw e

/-- Make a directory and those above it that are missing; one that is there already is kept. -/
def makeDirAll (cwd : Loc) (p : Path) : Edit OsError Unit :=
  makeDirAllAux cwd (p.components.length + 1) p

/-- Remove a file or a link. -/
def removeFile (cwd : Loc) (p : Path) (t : Tree) : Except OsError (Unit × Tree) := do
  let l ← t.locate cwd p
  if t.get? l = some .dir then .error .isDirectory else return (⟨⟩, t.erase l)

/-- Remove whatever a path names, with everything in it; a link is removed and not followed. -/
def removeAll (cwd : Loc) (p : Path) (t : Tree) : Except OsError (Unit × Tree) := do
  let l ← t.locate cwd p
  return (⟨⟩, t.erase l)

/-- Make a symbolic link. -/
def makeLink (cwd : Loc) (p target : Path) (t : Tree) : Except OsError (Unit × Tree) := do
  checkPath target
  checkPath p
  match ← t.resolveLast maxLinks (p.start cwd) p.route with
  | (_, none) => .error .alreadyExists
  | (pos, some last) =>
    if (t.get? (pos.loc ++ [last])).isSome then .error .alreadyExists
    else return (⟨⟩, t.put (pos.loc ++ [last]) (.link target))

/-- The location of what a path leads to, with its canonical spelling. -/
def canonicalize (t : Tree) (cwd : Loc) (p : Path) : Except OsError (Loc × Path) := do
  let pos ← t.resolve cwd p
  return (pos.loc, pos.loc.path)

end Tree

end Zipship
