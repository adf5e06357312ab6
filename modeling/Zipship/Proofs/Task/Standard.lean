import Mathlib.Data.List.Induction
import Zipship.Proofs.Task.Append

/-!
# The plan of a project

The tasks of a project need nothing but a clean one, so a plan has a closed form: cleaning, and then
what is requested beside it, each task where it is first asked for (`plan_standard_eq`). It does not
matter where cleaning itself is requested, or whether it is.
-/

namespace Zipship

/-- The last of some values comes behind the distinct ones before it, unless it is one of them. -/
theorem eraseDups_snoc {α : Type} [DecidableEq α] (l : List α) (a : α) :
    (l ++ [a]).eraseDups = if a ∈ l then l.eraseDups else l.eraseDups ++ [a] := by
  rw [List.eraseDups_append]
  by_cases ha : a ∈ l
  · simp [List.removeAll, ha]
  · simp [List.removeAll, ha, List.eraseDups_cons]

namespace Graph

variable {requests : List Task}

/-- The plan for some requests: cleaning, and the other tasks in order of first request. -/
def cleanFirst (requests : List Task) : List Task :=
  .clean :: (requests.filter (· ≠ .clean)).eraseDups

theorem clean_not_mem_others : Task.clean ∉ (requests.filter (· ≠ .clean)).eraseDups := by
  simp [List.mem_eraseDups]

/-- One more request comes at the end, unless it was made before or is for cleaning. -/
theorem cleanFirst_snoc (requests : List Task) (task : Task) :
    cleanFirst (requests ++ [task]) = behind (cleanFirst requests) (cleanFirst [task]) := by
  unfold cleanFirst behind
  by_cases htask : task = .clean
  · subst htask
    simp
  · have hothers : [task].filter (· ≠ .clean) = [task] := by simp [htask]
    rw [List.filter_append, hothers, eraseDups_snoc]
    by_cases hdone : task ∈ requests
    · simp [hdone, htask, List.eraseDups_cons]
    · simp [hdone, htask, List.eraseDups_cons]

/-- A single request is planned behind cleaning, or is for that. -/
theorem plan_single (task : Task) : standard.plan [task] = .ok (cleanFirst [task]) := by
  cases task <;> decide

/-- **The plan of a project** is cleaning, followed by the other requested tasks in order of first
request, each once. -/
theorem plan_standard_eq (h : requests ≠ []) :
    standard.plan requests = .ok (cleanFirst requests) := by
  induction requests using List.reverseRecOn with
  | nil => exact absurd rfl h
  | append_singleton requests task ih =>
    by_cases hrequests : requests = []
    · subst hrequests
      exact plan_single task
    · rw [cleanFirst_snoc]
      exact plan_append_eq (not_cyclic_of_accepted ofDeclarations?_standard) (ih hrequests)
        (plan_single task)

end Graph

end Zipship
