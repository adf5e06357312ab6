import Zipship.Tree.Edit

/-!
# Laying out trees

A layout is a list of items, each of which puts one thing into a tree, with the directories above it
that are missing.
-/

namespace Zipship.Tree

/-- Something to put into a tree. -/
inductive Item where
  | file (path : Path) (content : Bytes) (mode : Nat)
  | dir (path : Path)
  | link (path target : Path)
  deriving Repr

/-- Make the directories above a path. -/
def makeParents (cwd : Loc) (p : Path) : Edit OsError Unit :=
  match p.parent? with
  | some above => makeDirAll cwd above
  | none => pure ⟨⟩

/-- Put an item into a tree. -/
def place (cwd : Loc) : Item → Edit OsError Unit
  | .file path content mode => do
    makeParents cwd path
    let l ← Edit.step (create cwd path)
    Edit.step (write l content)
    Edit.step (setMode cwd path mode)
  | .dir path => makeDirAll cwd path
  | .link path target => do
    makeParents cwd path
    Edit.step (makeLink cwd path target)

/-- Put items into a tree, one after another; an item that does not fit is left out. -/
def placeAll (cwd : Loc) (items : List Item) (t : Tree) : Tree :=
  items.foldl (fun t item => ((place cwd item).exec t).2) t

end Zipship.Tree
