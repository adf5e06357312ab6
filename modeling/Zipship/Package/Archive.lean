import Zipship.Package.Report
import Zipship.Package.Walk
import Zipship.Tree.Bytecode
import Zipship.Zip.Writer

/-!
# Archiving a directory

The archive holds everything below the source directory, links followed, except what an interpreter
compiles, the archive itself, and whatever is in the excluded directory. Those two are known by
their spelled paths. If the walk ends early, or the archive refuses an entry, it is closed with the
entries before that.

The name of an entry is text. Where the names that lead to it are not, what is shown of them is
taken, and that may be the same for different names: then the archive refuses the second entry.
-/

namespace Zipship.Package

/-- What an archive holds. -/
structure Summary where
  entries : Nat
  /-- The archive holds the module that an interpreter starts with. -/
  hasEntryPoint : Bool
  deriving DecidableEq, Repr

/-- The name of the entry for the module that an interpreter starts with. -/
def entryPoint : String := "__main__.py"

/-- The names that lead to an entry, as texts: bytes that are no text are replaced. -/
def entryNames (names : List Name) : List String := names.map Bytes.shown

/-- An entry that stays out of the archive. -/
def isSkipped (source dest exclude : Path) (names : List Name) (node : Node) : Bool :=
  names.getLast?.any (Node.isBytecode · node) ||
    (source.descend names).same dest || (source.descend names).isBelow exclude

/-- The walk of what goes into an archive. -/
def archiveWalk (t : Tree) (cwd : Loc) (source dest exclude : Path) : Walk :=
  Walk.ofSource t cwd source (isSkipped source dest exclude)

/-- The error that a fault of the walk becomes. -/
def faultError (source : Path) : Walk.Fault → Error
  | .unopened names cause => .io (source.descend names) cause
  | fault => .walk (source.descend fault.names) (fault.message source)

/-- The entry for what the walk lists. The archive that is being written, if the walk meets it, has
the content that was written until then. -/
def entryOf (draft : Zip.Draft) (dest : Loc) (v : Visit) : Zip.Entry :=
  match v.node with
  | .dir => ⟨Zip.directoryName (entryNames v.names), .directory⟩
  | node =>
    let name := Zip.joinNames (entryNames v.names)
    if v.loc = dest then
      ⟨name, .file (draft.opened ⟨name, .file [] node.isExecutable⟩) node.isExecutable⟩
    else ⟨name, .file node.content node.isExecutable⟩

/-- The archive of what a walk lists, for a file at `dest`. -/
def draftOf (dest : Loc) (visits : List Visit) : Zip.Draft :=
  visits.foldl (fun draft v => draft.add (entryOf draft dest v)) .empty

/-- The archive has an entry already of the name that the next one would have. -/
def isDuplicate (draft : Zip.Draft) (dest : Loc) (v : Visit) : Bool :=
  draft.names.contains (entryOf draft dest v).name

/-- The next entry holds more than an entry can. -/
def isTooLarge (draft : Zip.Draft) (dest : Loc) (v : Visit) : Bool :=
  v.node = .device .full || Zip.maxSize < (entryOf draft dest v).body.content.length

/-- The next entry cannot be finished because of what it is when it is packed. Nothing gets twice as
long by that, so only what is long has to be packed to find out. -/
def isPackedTooLarge (draft : Zip.Draft) (dest : Loc) (v : Visit) : Bool :=
  let body := (entryOf draft dest v).body
  Zip.maxSize < 2 * body.content.length && Zip.maxSize < body.packed.length

/-- The error of an archive whose last entry cannot be finished: that is noticed when the next thing
is done. -/
def unfinishedError (source dest : Path) (rest : List Visit) (fault : Option Walk.Fault) : Error :=
  match rest, fault with
  | next :: _, _ => .archive (source.descend next.names) (.io .tooLarge)
  | [], some fault => faultError source fault
  | [], none => .archive dest (.io .tooLarge)

/-- Go on with the archive of what a walk lists, for a file at `place` with the path `dest`: what
the file holds in the end, and the error that ended it. An entry that is refused ends the archive,
which is closed with those before. -/
def fill (source dest : Path) (place : Loc) (fault : Option Walk.Fault) (draft : Zip.Draft) :
    List Visit → Bytes × Option Error
  | [] => (draft.close, fault.map (faultError source))
  | v :: rest =>
    let e := entryOf draft place v
    let path := source.descend v.names
    if isDuplicate draft place v then (draft.close, some (.archive path (.duplicate e.name)))
    else if isTooLarge draft place v then (draft.close, some (.io path .tooLarge))
    else if isPackedTooLarge draft place v then
      (draft.givenUp e, some (unfinishedError source dest rest fault))
    else fill source dest place fault (draft.add e) rest

/-- The summary of what a walk lists. -/
def summarize (visits : List Visit) : Summary where
  entries := visits.length
  hasEntryPoint := visits.any fun v =>
    Zip.joinNames (entryNames v.names) = entryPoint && v.node ≠ .dir

/-- Make `content` the content of the archive of a walk, in the file at `place`. A device that takes
nothing refuses the first entry already. -/
def writeContent (source dest : Path) (place : Loc) (w : Walk) (content : Bytes) :
    Edit Error Unit :=
  Edit.onError (Edit.step (Tree.write place content)) fun e =>
    match w.visits.head?, w.fault with
    | some v, _ => .archive (source.descend v.names) (.io e)
    | none, some fault => faultError source fault
    | none, none => .io dest e

/-- Archive the directory `source` to a file at `dest`. -/
def writeArchive (cwd : Loc) (source dest exclude : Path) : Edit Error Summary := do
  let place ← Edit.onError (Edit.step (Tree.create cwd dest)) (.io dest)
  let w := archiveWalk (← get) cwd source dest exclude
  let (content, failure) := fill source dest place w.fault .empty w.visits
  writeContent source dest place w content
  match failure with
  | some e => throw e
  | none => return summarize w.visits

end Zipship.Package
