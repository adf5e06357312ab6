import Zipship.Config.Layers
import Zipship.Task.Report
import Zipship.Testing.WaitStatus
import Zipship.Tree.Edit

/-!
# Machines

A machine is a file tree together with a log of what happened on it since a run started: tasks that
started and finished, programs that were launched, and what those wrote. Programs are not part of a
machine. A `Launcher` says what launching one does, and may answer differently each time.
-/

namespace Zipship

/-- A program that is launched, with everything it is given. -/
structure Launch where
  program : String
  args : List String
  env : Environment
  cwd : Path
  deriving DecidableEq, Repr

/-- Something that happened during a run. -/
inductive Event where
  | started (task : Task)
  | launched (l : Launch)
  /-- A program wrote to its two outputs. -/
  | wrote (out err : Bytes)
  | finished (outcome : Task.Outcome)
  deriving DecidableEq, Repr

/-- A file tree, and what happened on it, oldest first. -/
structure Machine where
  tree : Tree
  log : List Event

/-- How a program ended, what it wrote, and the tree it left. -/
structure Ended where
  status : WaitStatus
  out : Bytes
  err : Bytes
  tree : Tree

/-- What launching a program does, after everything that happened before. -/
abbrev Launcher := List Event → Launch → Tree → Except OsError Ended

/-- A computation on a machine that may fail as a task does. -/
abbrev Act (α : Type) := ExceptT Task.Error (StateM Machine) α

namespace Act

/-- The outcome of a computation and the machine it leaves. -/
def exec {α : Type} (a : Act α) (m : Machine) : Except Task.Error α × Machine := a.run m

/-- A computation on the tree of the machine. -/
def onTree {ε α : Type} (e : Edit ε α) (wording : ε → Task.Error) : Act α := fun m =>
  match e.exec m.tree with
  | (.ok a, t) => (.ok a, { m with tree := t })
  | (.error err, t) => (.error (wording err), { m with tree := t })

/-- Launch a program and wait for its end. -/
def launch (launcher : Launcher) (l : Launch) (wording : OsError → Task.Error) : Act WaitStatus :=
  fun m =>
    match launcher m.log l m.tree with
    | .ok e => (.ok e.status, ⟨e.tree, m.log ++ [.launched l, .wrote e.out e.err]⟩)
    | .error err => (.error (wording err), { m with log := m.log ++ [.launched l] })

end Act

end Zipship
