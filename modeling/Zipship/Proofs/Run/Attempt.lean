import Mathlib.Data.List.Chain
import Zipship.Proofs.Run.Report

/-!
# The attempts of a run

A run comes to the tasks of its plan one after another, until one fails. `attempts` lists what it
comes to: each task with the machine on which it starts, which the tasks before it left, what comes
of it, and the machine that it leaves. The report is read off the attempts
(`completed_executePlan`, `failed_executePlan`), and so are the tasks that the log shows to have
started and the programs that it shows to have been launched (`started_executePlan`,
`launches_executePlan`).
-/

namespace Zipship

/-- A task that a run came to: the machine on which it started, what came of it, and the machine
that it left. -/
structure Attempt where
  task : Task
  before : Machine
  result : Except Task.Error Task.Outcome
  after : Machine

/-- What a run comes to, in order. The machine for the next task is the one that a task left, with
the log telling that it finished; nothing follows a failure. -/
def attempts (perform : Task → Act Task.Outcome) : List Task → Machine → List Attempt
  | [], _ => []
  | task :: rest, m =>
    match (perform task).exec (m.record (.started task)) with
    | (.error e, m') => [⟨task, m.record (.started task), .error e, m'⟩]
    | (.ok outcome, m') =>
      ⟨task, m.record (.started task), .ok outcome, m'⟩ ::
        attempts perform rest (m'.record (.finished outcome))

/-- The failure of an attempt. -/
def Attempt.failure? (a : Attempt) : Option Task.Failure :=
  match a.result with
  | .error e => some ⟨a.task, e⟩
  | .ok _ => none

/-! ## What a log shows -/

/-- The task that the event tells to have started. -/
def Event.started? : Event → Option Task
  | started task => some task
  | launched _ | wrote _ _ | finished _ => none

/-- The launch that the event tells of. -/
def Event.launch? : Event → Option Launch
  | launched l => some l
  | started _ | wrote _ _ | finished _ => none

/-- The tasks that were started on the machine, in order. -/
def Machine.started (m : Machine) : List Task := m.log.filterMap Event.started?

/-- The programs that were launched on the machine, in order, whether or not they could be. -/
def Machine.launches (m : Machine) : List Launch := m.log.filterMap Event.launch?

/-- The programs that were launched in an attempt. -/
def Attempt.launches (a : Attempt) : List Launch :=
  (a.after.log.drop a.before.log.length).filterMap Event.launch?

section Log

variable {a : Attempt} {m m' : Machine} {host : Host} {c : Config} {options : RunOptions}
  {task : Task}

@[simp] theorem Machine.launches_record (m : Machine) (e : Event) :
    (m.record e).launches = m.launches ++ e.launch?.toList := by
  unfold launches record
  cases h : e.launch? <;> simp [h]

@[simp] theorem Machine.started_record (m : Machine) (e : Event) :
    (m.record e).started = m.started ++ e.started?.toList := by
  unfold started record
  cases h : e.started? <;> simp [h]

/-- What was started is told of as progress. -/
theorem Machine.started_eq (m : Machine) : m.started = m.progress.filterMap Event.started? := by
  have hevent (e : Event) :
      (if e.isProgress = true then e.started? else none) = e.started? := by
    cases e <;> rfl
  unfold started progress
  rw [List.filterMap_filter, funext hevent]

theorem Attempt.launches_eq {more : List Event} (h : a.after.log = a.before.log ++ more) :
    a.launches = more.filterMap Event.launch? := by
  unfold launches
  rw [h, List.drop_left]

theorem Attempt.launches_after (a : Attempt) (h : a.before.log <+: a.after.log) :
    a.after.launches = a.before.launches ++ a.launches := by
  obtain ⟨more, hmore⟩ := h
  rw [launches_eq hmore.symm]
  unfold Machine.launches
  rw [← hmore, List.filterMap_append]

/-- A task only adds to the log. -/
theorem Task.log_of_perform {result : Except Error Outcome}
    (h : (perform host c options task).exec m = (result, m')) : m.log <+: m'.log := by
  cases performs h with
  | cleaned | uncleaned | packaged | unpackaged | unmeasured => exact List.prefix_rfl
  | unlaunched | passed | failed => exact List.prefix_append _ _

end Log

/-! ## Attempts and runs -/

section Attempts

variable {perform : Task → Act Task.Outcome} {task : Task} {rest plan : List Task} {a : Attempt}
  {m m' : Machine}

/-- A run fails with its first task, or goes on behind it. -/
theorem attempts_cases (perform : Task → Act Task.Outcome) (task : Task) (rest : List Task)
    (m : Machine) :
    (∃ e m', (perform task).exec (m.record (.started task)) = (.error e, m') ∧
      attempts perform (task :: rest) m = [⟨task, m.record (.started task), .error e, m'⟩] ∧
      execute perform (task :: rest) m = (([], some ⟨task, e⟩), m')) ∨
    ∃ outcome m' later, (perform task).exec (m.record (.started task)) = (.ok outcome, m') ∧
      attempts perform (task :: rest) m = ⟨task, m.record (.started task), .ok outcome, m'⟩ ::
        attempts perform rest (m'.record (.finished outcome)) ∧
      execute perform rest (m'.record (.finished outcome)) = later ∧
      execute perform (task :: rest) m = ((outcome :: later.1.1, later.1.2), later.2) := by
  cases hexec : (perform task).exec (m.record (.started task)) with
  | mk result m' =>
    cases result with
    | error e =>
      refine Or.inl ⟨e, m', rfl, ?_, ?_⟩
      · rw [attempts, hexec]
      · rw [execute, hexec]
    | ok outcome =>
      refine Or.inr ⟨outcome, m', _, rfl, ?_, rfl, execute_cons_of_ok hexec rfl⟩
      rw [attempts, hexec]

/-- An attempt is its task done on the machine on which it starts. -/
theorem exec_of_mem_attempts (ha : a ∈ attempts perform plan m) :
    (perform a.task).exec a.before = (a.result, a.after) := by
  induction plan generalizing m with
  | nil => cases ha
  | cons task rest ih =>
    rcases attempts_cases perform task rest m with
      ⟨e, m', hexec, hattempts, -⟩ | ⟨outcome, m', later, hexec, hattempts, -⟩
    · rw [hattempts] at ha
      rw [List.mem_singleton.mp ha]
      exact hexec
    · rw [hattempts] at ha
      rcases List.mem_cons.mp ha with rfl | ha
      · exact hexec
      · exact ih ha

/-- A run comes to tasks at the front of its plan, and to the first one at least. -/
theorem attempts_isPrefix (perform : Task → Act Task.Outcome) (plan : List Task) (m : Machine) :
    (attempts perform plan m).map Attempt.task <+: plan ∧
      (attempts perform plan m).head?.map Attempt.task = plan.head? := by
  induction plan generalizing m with
  | nil => exact ⟨List.prefix_rfl, rfl⟩
  | cons task rest ih =>
    rcases attempts_cases perform task rest m with
      ⟨e, m', hexec, hattempts, -⟩ | ⟨outcome, m', later, hexec, hattempts, -⟩
    · rw [hattempts]
      exact ⟨List.cons_prefix_cons.mpr ⟨rfl, List.nil_prefix⟩, rfl⟩
    · rw [hattempts]
      exact ⟨List.cons_prefix_cons.mpr ⟨rfl, (ih _).1⟩, rfl⟩

/-- Each attempt starts on the tree that the one before it left, the first one on the tree that was
there. -/
theorem attempts_isChain (perform : Task → Act Task.Outcome) (plan : List Task) (m : Machine) :
    (attempts perform plan m).IsChain (fun a b => b.before.tree = a.after.tree) ∧
      ∀ a ∈ (attempts perform plan m).head?, a.before.tree = m.tree := by
  induction plan generalizing m with
  | nil => exact ⟨List.isChain_nil, fun _ h => nomatch h⟩
  | cons task rest ih =>
    rcases attempts_cases perform task rest m with
      ⟨e, m', hexec, hattempts, -⟩ | ⟨outcome, m', later, hexec, hattempts, -⟩
    · rw [hattempts]
      exact ⟨List.isChain_singleton _, fun a ha => by cases ha; rfl⟩
    · obtain ⟨hchain, hhead⟩ := ih (m'.record (.finished outcome))
      rw [hattempts]
      exact ⟨List.isChain_cons.mpr ⟨hhead, hchain⟩, fun a ha => by cases ha; rfl⟩

/-- What a run completes is what comes of its attempts, and its failure is that of an attempt. -/
theorem execute_eq : (execute perform plan m).1 =
    ((attempts perform plan m).filterMap fun a => a.result.toOption,
      (attempts perform plan m).findSome? Attempt.failure?) := by
  induction plan generalizing m with
  | nil => rfl
  | cons task rest ih =>
    rcases attempts_cases perform task rest m with
      ⟨e, m', -, hattempts, hexecute⟩ | ⟨outcome, m', later, -, hattempts, rfl, hexecute⟩
    · rw [hattempts, hexecute]
      rfl
    · rw [hattempts, hexecute, ih]
      rfl

/-- What a run launches is what its attempts launch. -/
theorem launches_execute (hlog : ∀ {task m result m'},
    (perform task).exec m = (result, m') → m.log <+: m'.log) :
    (execute perform plan m).2.launches =
      m.launches ++ (attempts perform plan m).flatMap Attempt.launches := by
  induction plan generalizing m with
  | nil => simp [execute, attempts]
  | cons task rest ih =>
    have hfirst {result : Except Task.Error Task.Outcome} {m' : Machine}
        (hexec : (perform task).exec (m.record (.started task)) = (result, m')) :
        m'.launches = m.launches ++
          Attempt.launches ⟨task, m.record (.started task), result, m'⟩ := by
      have hafter := Attempt.launches_after ⟨task, m.record (.started task), result, m'⟩
        (hlog hexec)
      simpa [Event.launch?] using hafter
    rcases attempts_cases perform task rest m with
      ⟨e, m', hexec, hattempts, hexecute⟩ | ⟨outcome, m', later, hexec, hattempts, rfl, hexecute⟩
    · rw [hattempts, hexecute]
      simp [hfirst hexec]
    · rw [hattempts, hexecute]
      simp [ih, hfirst hexec, Event.launch?]

/-- What a run starts is what it comes to. -/
theorem started_execute (hquiet : ∀ {task m result m'},
    (perform task).exec m = (result, m') → m'.progress = m.progress) :
    (execute perform plan m).2.started =
      m.started ++ (attempts perform plan m).map Attempt.task := by
  induction plan generalizing m with
  | nil => simp [execute, attempts]
  | cons task rest ih =>
    have hfirst {result : Except Task.Error Task.Outcome} {m' : Machine}
        (hexec : (perform task).exec (m.record (.started task)) = (result, m')) :
        m'.started = m.started ++ [task] := by
      rw [Machine.started_eq, hquiet hexec, ← Machine.started_eq]
      simp [Event.started?]
    rcases attempts_cases perform task rest m with
      ⟨e, m', hexec, hattempts, hexecute⟩ | ⟨outcome, m', later, hexec, hattempts, rfl, hexecute⟩
    · rw [hattempts, hexecute]
      simp [hfirst hexec]
    · rw [hattempts, hexecute]
      simp [ih, hfirst hexec, Event.started?]

end Attempts

section Plans

variable (host : Host) (c : Config) (options : RunOptions) (plan : List Task) (m : Machine)

theorem completed_executePlan : (executePlan host c options plan m).1.completed =
    (attempts (Task.perform host c options) plan m).filterMap fun a => a.result.toOption :=
  congrArg Prod.fst execute_eq

theorem failed_executePlan : (executePlan host c options plan m).1.failed =
    (attempts (Task.perform host c options) plan m).findSome? Attempt.failure? :=
  congrArg Prod.snd execute_eq

theorem launches_executePlan : (executePlan host c options plan m).2.launches =
    m.launches ++ (attempts (Task.perform host c options) plan m).flatMap Attempt.launches :=
  launches_execute Task.log_of_perform

theorem started_executePlan : (executePlan host c options plan m).2.started =
    m.started ++ (attempts (Task.perform host c options) plan m).map Attempt.task :=
  started_execute Task.progress_of_perform

end Plans

end Zipship
