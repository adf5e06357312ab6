import Zipship.Proofs.Run.Execution
import Zipship.Proofs.Tree.Invariant

/-!
# What runs keep

A run ends behind its last task or at the first one that fails, and what the failing task changed
stays changed. So a property of the tree holds at the end of every run if each task keeps it
(`execute_keeps`). A task does what it does to the tree in one piece, except for those that launch
the test runner: they change nothing themselves.
-/

namespace Zipship

variable {α β ε : Type} {I : Tree → Prop} {task : Task} {plan : List Task} {m : Machine}
  {host : Host} {c : Config} {options : RunOptions}

/-- The computation keeps `I` of the tree, also when it fails. -/
def Act.Keeps (I : Tree → Prop) (a : Act α) : Prop := ∀ m, I m.tree → I (a.exec m).2.tree

namespace Act

theorem keeps_pure (a : α) : Keeps I (pure a : Act α) := fun _ h => h

theorem keeps_throw (e : Task.Error) : Keeps I (throw e : Act α) := fun _ h => h

theorem Keeps.bind {x : Act α} {f : α → Act β} (hx : Keeps I x) (hf : ∀ a, Keeps I (f a)) :
    Keeps I (x >>= f) := by
  intro m h
  have hfirst := hx m h
  rw [exec_bind]
  cases hexec : x.exec m with
  | mk result m' =>
    rw [hexec] at hfirst
    cases result with
    | error e => exact hfirst
    | ok a => exact hf a m' hfirst

theorem keeps_onTree {e : Edit ε α} {wording : ε → Task.Error} {Q : α → Prop}
    (h : e.Keeps I Q) : Keeps I (onTree e wording) := by
  intro m hm
  rw [exec_onTree]
  exact h.exec hm

end Act

namespace Task

/-- What cleaning does to the tree. -/
theorem tree_perform_clean : ((perform host c options .clean).exec m).2.tree =
    ((Clean.run host.cwd c options.dryRun).exec m.tree).2 := by
  unfold perform
  rw [Act.exec_bind, Act.exec_onTree]
  cases (Clean.run host.cwd c options.dryRun).exec m.tree with
  | mk result t => cases result <;> rfl

section Runner

variable (hrunner : ∀ log l t ended, host.launcher log l t = .ok ended → ended.tree = t)

include hrunner

theorem keeps_launch {l : Launch} {wording : OsError → Error} :
    Act.Keeps I (Act.launch host.launcher l wording) := by
  intro m h
  dsimp only [Act.launch, Act.exec, ExceptT.run]
  split
  · rename_i ended hlaunch
    show I ended.tree
    rwa [hrunner _ _ _ _ hlaunch]
  · exact h

/-- Running the tests changes the tree only as the runner does. -/
theorem keeps_testing {coverage : Bool} {extra : List String} :
    Act.Keeps I (Testing.run host c coverage extra) := by
  have hcheck : Act.Keeps I (Act.onTree (Edit.inspect (Testing.checkCoverageConfig host.cwd c))
      .testing) :=
    Act.keeps_onTree (Edit.keeps_inspect (Q := fun _ => True) fun _ _ _ _ => trivial)
  have hlaunch (i : Invocation) : Act.Keeps I (Act.launch host.launcher (i.toLaunch host.env)
      fun e => .testing (.spawn i.program e)) := keeps_launch hrunner
  unfold Testing.run
  cases coverage with
  | false => exact (hlaunch _).bind fun _ => Act.keeps_pure _
  | true => exact hcheck.bind fun _ => (hlaunch _).bind fun _ => Act.keeps_pure _

/-- What packaging keeps, every task but cleaning keeps. -/
theorem keeps_perform {Q : Package.Report → Prop} (htask : task ≠ .clean)
    (hpackage : (Package.run host.cwd c).Keeps I Q) :
    Act.Keeps I (perform host c options task) := by
  have hsucceeded (r : Testing.Report) : Act.Keeps I (succeeded task r) := by
    unfold succeeded
    split_ifs
    · exact Act.keeps_pure _
    · exact Act.keeps_throw _
  cases task with
  | clean => exact absurd rfl htask
  | compile => exact (Act.keeps_onTree hpackage).bind fun _ => Act.keeps_pure _
  | test | testWithCoverage =>
    exact (keeps_testing hrunner).bind fun r => (hsucceeded r).bind fun _ => Act.keeps_pure _

end Runner

end Task

/-- What every task of a plan keeps holds in the end, whether or not one of them failed. -/
theorem execute_keeps {perform : Task → Act Task.Outcome}
    (hperform : ∀ task ∈ plan, Act.Keeps I (perform task)) (h : I m.tree) :
    I (execute perform plan m).2.tree := by
  induction plan generalizing m with
  | nil => exact h
  | cons task plan ih =>
    have hfirst := hperform task List.mem_cons_self (m.record (.started task)) h
    unfold execute
    split
    · rename_i hfailed
      rwa [hfailed] at hfirst
    · rename_i outcome m₁ hdone
      rw [hdone] at hfirst
      exact ih (m := m₁.record (.finished outcome))
        (fun task ht => hperform task (List.mem_cons_of_mem _ ht)) hfirst

end Zipship
