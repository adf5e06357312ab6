import Zipship.Proofs.Run.Task

/-!
# What the report of a run says

A run completes tasks of its plan from the front, each in the machine that the ones before it left
(`Completes`). It ends behind the last one or at a task that fails, and nothing is done after that
(`execute_completes`). So the report, the log and the tree always tell of the same tasks
(`executePlan_reports`).

The log also shows what programs were launched. What a run itself tells is its `progress`: each task
when it starts, and what came of it when it is done.
-/

namespace Zipship

variable {task : Task} {plan : List Task}
  {outcome : Task.Outcome} {outcomes : List Task.Outcome} {failed : Option Task.Failure}
  {m m' m₁ reached : Machine} {host : Host} {c : Config} {options : RunOptions}

/-! ## Progress -/

/-- The event tells how far a run has come. -/
def Event.isProgress : Event → Bool
  | started _ | finished _ => true
  | launched _ | wrote _ _ => false

/-- What a run has told of its tasks. -/
def Machine.progress (m : Machine) : List Event := m.log.filter Event.isProgress

/-- What a run tells of a task that it completes. -/
def Task.Outcome.events (o : Task.Outcome) : List Event := [.started o.task, .finished o]

/-- What a run tells of a task that fails. -/
def Task.Failure.events (f : Task.Failure) : List Event := [.started f.task]

@[simp] theorem Machine.progress_record (m : Machine) (e : Event) :
    (m.record e).progress = if e.isProgress then m.progress ++ [e] else m.progress := by
  unfold progress record
  cases h : e.isProgress <;> simp [h]

@[simp] theorem Machine.progress_launched (m : Machine) (l : Launch) (e : Ended) :
    (m.launched l e).progress = m.progress := by
  simp [progress, launched, Event.isProgress]

/-- A task tells nothing of its own progress. -/
theorem Task.progress_of_perform {result : Except Error Outcome}
    (h : (perform host c options task).exec m = (result, m')) : m'.progress = m.progress := by
  cases performs h with
  | cleaned | uncleaned | packaged | unpackaged | unmeasured => rfl
  | unlaunched => simp [Event.isProgress]
  | passed | failed => simp

/-- What comes of a task is marked as coming of that task. -/
theorem Task.task_of_perform (h : (perform host c options task).exec m = (.ok outcome, m')) :
    outcome.task = task := by
  generalize hresult : Except.ok outcome = result at h
  cases performs h with
  | cleaned | packaged =>
    cases hresult
    rfl
  | uncleaned | unpackaged | unmeasured | unlaunched | failed => cases hresult
  | @passed coverage =>
    cases hresult
    cases coverage <;> rfl

/-! ## Runs -/

section Execute

variable {perform : Task → Act Task.Outcome}

/-- Tasks are completed one after another: each is what comes of it in the machine that the ones
before it left. -/
inductive Completes (perform : Task → Act Task.Outcome) :
    Machine → List Task.Outcome → Machine → Prop
  | nil (m : Machine) : Completes perform m [] m
  | cons {m m₁ reached : Machine} {outcome : Task.Outcome} {later : List Task.Outcome}
      (hfirst : (perform outcome.task).exec (m.record (.started outcome.task)) = (.ok outcome, m₁))
      (hlater : Completes perform (m₁.record (.finished outcome)) later reached) :
      Completes perform m (outcome :: later) reached

/-- A run ends where its plan does, or at the next task if that fails. -/
inductive Ends (perform : Task → Act Task.Outcome) :
    Machine → List Task → Option Task.Failure → Machine → Prop
  | done (m : Machine) : Ends perform m [] none m
  | failed {m m' : Machine} {f : Task.Failure} {later : List Task}
      (h : (perform f.task).exec (m.record (.started f.task)) = (.error f.error, m')) :
      Ends perform m (f.task :: later) (some f) m'

/-- **A run completes tasks of its plan from the front, and ends.** -/
theorem execute_completes
    (htask : ∀ {task m outcome m'}, (perform task).exec m = (.ok outcome, m') →
      outcome.task = task)
    (h : execute perform plan m = ((outcomes, failed), m')) :
    ∃ reached rest, plan = outcomes.map Task.Outcome.task ++ rest ∧
      Completes perform m outcomes reached ∧ Ends perform reached rest failed m' := by
  induction plan generalizing m outcomes with
  | nil =>
    cases h
    exact ⟨_, [], rfl, .nil _, .done _⟩
  | cons task plan ih =>
    unfold execute at h
    split at h
    · rename_i e m₁ hfirst
      cases h
      exact ⟨m, task :: plan, rfl, .nil m, .failed (f := ⟨task, e⟩) hfirst⟩
    · rename_i outcome m₁ hfirst
      generalize hrest : execute perform plan (m₁.record (.finished outcome)) = after at h
      obtain ⟨⟨later, failed⟩, m₂⟩ := after
      cases h
      obtain rfl := htask hfirst
      obtain ⟨reached, rest, rfl, hlater, hends⟩ := ih hrest
      exact ⟨reached, rest, rfl, .cons hfirst hlater, hends⟩

theorem Ends.eq_none_iff {rest : List Task} (h : Ends perform reached rest failed m') :
    failed = none ↔ rest = [] := by
  cases h <;> simp

theorem Ends.eq_of_done {rest : List Task} (h : Ends perform reached rest none m') :
    m' = reached := by
  cases h
  rfl

theorem Ends.fails {rest : List Task} {f : Task.Failure}
    (h : Ends perform reached rest (some f) m') : rest.head? = some f.task ∧
      (perform f.task).exec (reached.record (.started f.task)) = (.error f.error, m') := by
  cases h with
  | failed h => exact ⟨rfl, h⟩

variable (hquiet : ∀ {task m result m'}, (perform task).exec m = (result, m') →
  m'.progress = m.progress)

include hquiet

theorem Completes.progress_eq (h : Completes perform m outcomes reached) :
    reached.progress = m.progress ++ outcomes.flatMap Task.Outcome.events := by
  induction h with
  | nil m => simp
  | cons hfirst _ ih =>
    rw [ih, Machine.progress_record, hquiet hfirst]
    simp [Task.Outcome.events, Event.isProgress]

theorem Ends.progress_eq {rest : List Task} (h : Ends perform reached rest failed m') :
    m'.progress = reached.progress ++ failed.toList.flatMap Task.Failure.events := by
  cases h with
  | done => simp
  | failed h =>
    rw [hquiet h]
    simp [Task.Failure.events, Event.isProgress]

end Execute

theorem executePlan_completes {r : RunReport}
    (h : executePlan host c options plan m = (r, m')) : r.plan = plan ∧
      ∃ reached rest, plan = r.completed.map Task.Outcome.task ++ rest ∧
        Completes (Task.perform host c options) m r.completed reached ∧
        Ends (Task.perform host c options) reached rest r.failed m' := by
  unfold executePlan at h
  generalize hrun : execute (Task.perform host c options) plan m = after at h
  obtain ⟨⟨completed, failed⟩, m₁⟩ := after
  cases h
  exact ⟨rfl, execute_completes Task.task_of_perform hrun⟩

/-- A run has no failure exactly if all of its plan was completed. -/
theorem failed_eq_none_iff {r : RunReport} (h : executePlan host c options plan m = (r, m')) :
    r.failed = none ↔ r.completed.map Task.Outcome.task = plan := by
  obtain ⟨-, reached, rest, hsplit, -, hends⟩ := executePlan_completes h
  rw [hends.eq_none_iff, hsplit, List.self_eq_append_right]

/-- **A report tells what happened.** The outcomes are those of the tasks at the front of the plan,
each as the task gives it in the machine that the ones before it left. There is no failure exactly
if they are all of the plan. Otherwise the failure is that of the next task, which is the last thing
that is done. The log tells the same: of each task that was completed that it started and what came
of it, and of the one that failed that it started. -/
theorem executePlan_reports (host : Host) (c : Config) (options : RunOptions) (plan : List Task)
    (m : Machine) :
    ∃ r m' reached rest, executePlan host c options plan m = (r, m') ∧
      r.plan = plan ∧ plan = r.completed.map Task.Outcome.task ++ rest ∧
      Completes (Task.perform host c options) m r.completed reached ∧
      (r.failed = none ↔ r.completed.map Task.Outcome.task = plan) ∧
      (r.failed = none → m' = reached) ∧
      (∀ f, r.failed = some f → rest.head? = some f.task ∧
        (Task.perform host c options f.task).exec (reached.record (.started f.task)) =
          (.error f.error, m')) ∧
      m'.progress = m.progress ++ r.completed.flatMap Task.Outcome.events ++
        r.failed.toList.flatMap Task.Failure.events := by
  cases hrun : executePlan host c options plan m with
  | mk r m' =>
    obtain ⟨hplan, reached, rest, hsplit, hcompletes, hends⟩ := executePlan_completes hrun
    refine ⟨r, m', reached, rest, rfl, hplan, hsplit, hcompletes, failed_eq_none_iff hrun,
      fun hnone => ?_, fun f hf => ?_, ?_⟩
    · rw [hnone] at hends
      exact hends.eq_of_done
    · rw [hf] at hends
      exact hends.fails
    · rw [hends.progress_eq Task.progress_of_perform,
        hcompletes.progress_eq Task.progress_of_perform]

end Zipship
