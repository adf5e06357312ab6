import Zipship.Task.Basic

/-!
# Task graphs

A graph says which tasks need which others first. It is built from declarations, each of a task with
its prerequisites, and only if no task needs itself, directly or through others. `plan` puts the
requested tasks in an order in which everything comes after what it needs.

A cycle is looked for in two passes. The first one visits every task depth-first along its
dependents, keeping the order in which tasks are discovered and finished; a task that names itself
is reported where it is discovered. The second one goes through the tasks from the last finished to
the first. Without a cycle every task comes after its prerequisites in that order, so a task that
comes before one of them gives a cycle away.
-/

namespace Zipship

/-- Which tasks there are, and which need which others first. -/
structure Graph where
  /-- The tasks in the order in which they were first mentioned. -/
  tasks : List Task
  /-- A task and one of its prerequisites, each such pair once, in order of declaration. -/
  needs : List (Task × Task)
  deriving DecidableEq, Repr

namespace Graph

/-- The list with `a` at its end unless it is there already. -/
def insertNew {α : Type} [DecidableEq α] (l : List α) (a : α) : List α :=
  if a ∈ l then l else l ++ [a]

/-- Add a task with its prerequisites. -/
def declare (g : Graph) (task : Task) (prerequisites : List Task) : Graph where
  tasks := (task :: prerequisites).foldl insertNew g.tasks
  needs := (prerequisites.map fun p => (task, p)).foldl insertNew g.needs

/-- The graph of some declarations, whether or not it has a cycle. -/
def ofDeclarations (declarations : List (Task × List Task)) : Graph :=
  declarations.foldl (fun g d => g.declare d.1 d.2) ⟨[], []⟩

/-- The tasks that need a task directly, in order of declaration. -/
def dependents (g : Graph) (task : Task) : List Task :=
  (g.needs.filter fun n => n.2 = task).map Prod.fst

/-- The tasks that a task needs directly, in order of declaration. -/
def needed (g : Graph) (task : Task) : List Task :=
  (g.needs.filter fun n => n.1 = task).map Prod.snd

/-- The tasks that a task needs directly, in the order in which tasks are listed. -/
def prerequisites (g : Graph) (task : Task) : List Task :=
  Task.all.filter fun p => (task, p) ∈ g.needs

/-! ## Cycles -/

/-- How far a depth-first visit has come. -/
structure Visit where
  discovered : List Task
  finished : List Task
  deriving DecidableEq, Repr

/-- Visit a task and what depends on it; `fuel` bounds the depth. -/
def visit (g : Graph) : Nat → Visit → Task → Visit
  | 0, v, _ => v
  | fuel + 1, v, task =>
    if task ∈ v.discovered then v
    else
      let v := (g.dependents task).foldl (g.visit fuel)
        { v with discovered := v.discovered ++ [task] }
      { v with finished := v.finished ++ [task] }

/-- The visit of the whole graph, from each task in order of mention. -/
def visitAll (g : Graph) : Visit :=
  g.tasks.foldl (g.visit (g.tasks.length + 1)) ⟨[], []⟩

/-- Of a list in which every task should come after its prerequisites, the first prerequisite that
does not come before the task that needs it. -/
def misplaced? (g : Graph) (seen : List Task) : List Task → Option Task
  | [] => none
  | task :: rest =>
    match (g.needed task).find? (· ∉ task :: seen) with
    | some p => some p
    | none => g.misplaced? (task :: seen) rest

/-- A task on a cycle, if there is a cycle. -/
def cyclic? (g : Graph) : Option Task :=
  let v := g.visitAll
  match v.discovered.find? fun t => (t, t) ∈ g.needs with
  | some t => some t
  | none => g.misplaced? [] v.finished.reverse

/-- The graph of some declarations; a task on a cycle if there is one. -/
def ofDeclarations? (declarations : List (Task × List Task)) : Except Task Graph :=
  let g := ofDeclarations declarations
  match g.cyclic? with
  | some t => .error t
  | none => .ok g

/-- The graph of all tasks with their own prerequisites. -/
def standard : Graph := ofDeclarations (Task.all.map fun t => (t, t.prerequisites))

/-- The tasks with their own prerequisites have no cycle. -/
theorem ofDeclarations?_standard :
    ofDeclarations? (Task.all.map fun t => (t, t.prerequisites)) = .ok standard := by
  rfl

/-! ## Plans -/

/-- Put a task behind what it needs, at the end of a plan. The tasks that are being added above it
are `above`; meeting one of them again is a cycle. `fuel` bounds their number. -/
def extend (g : Graph) : Nat → List Task → List Task → Task → Except Task (List Task)
  | 0, _, _, task => .error task
  | fuel + 1, above, plan, task =>
    if task ∈ plan then .ok plan
    else if task ∈ above then .error task
    else do
      let plan ← (g.prerequisites task).foldlM (g.extend fuel (task :: above)) plan
      return plan ++ [task]

/-- The requested tasks and everything they need, each once and behind what it needs. -/
def plan (g : Graph) (requests : List Task) : Except Task (List Task) :=
  requests.foldlM (g.extend (Task.all.length + 1) []) []

end Graph

end Zipship
