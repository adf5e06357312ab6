import Zipship.Run.Execution

/-!
# Runs taken apart

A run without a failure did its tasks one after another. `execute_cons_ok` gives the outcome of the
first one and the machine it left, and `perform_clean_ok` and `perform_compile_ok` what the task did
to the tree. The other way round, `execute_cons_of_ok`, `perform_clean_of_ok` and
`perform_compile_of_ok` put a run together from what its tasks do to the tree.
-/

namespace Zipship

variable {perform : Task → Act Task.Outcome} {task : Task} {rest : List Task}
  {outcomes : List Task.Outcome} {outcome : Task.Outcome} {m m' : Machine} {host : Host}
  {c : Config} {options : RunOptions}

theorem execute_cons_ok (h : execute perform (task :: rest) m = ((outcomes, none), m')) :
    ∃ outcome later m₁, (perform task).exec (m.record (.started task)) = (.ok outcome, m₁) ∧
      execute perform rest (m₁.record (.finished outcome)) = ((later, none), m') ∧
      outcomes = outcome :: later := by
  unfold execute at h
  split at h
  · cases h
  · rename_i outcome m₁ hperform
    generalize hrest : execute perform rest (m₁.record (.finished outcome)) = after at h
    obtain ⟨⟨later, failed⟩, m₂⟩ := after
    cases h
    exact ⟨outcome, later, m₁, hperform, hrest, rfl⟩

theorem execute_cons_of_ok {m₁ : Machine} {failed : Option Task.Failure}
    (hfirst : (perform task).exec (m.record (.started task)) = (.ok outcome, m₁))
    (hrest : execute perform rest (m₁.record (.finished outcome)) = ((outcomes, failed), m')) :
    execute perform (task :: rest) m = ((outcome :: outcomes, failed), m') := by
  rw [execute, hfirst]
  simp only [hrest]

theorem execute_nil_ok (h : execute perform [] m = ((outcomes, none), m')) :
    outcomes = [] ∧ m' = m := by
  cases h
  exact ⟨rfl, rfl⟩

theorem executePlan_ok {plan : List Task} {r : RunReport}
    (h : executePlan host c options plan m = (r, m')) (hr : r.failed = none) :
    execute (Task.perform host c options) plan m = ((r.completed, none), m') := by
  unfold executePlan at h
  generalize hexec : execute (Task.perform host c options) plan m = after at h
  obtain ⟨⟨completed, failed⟩, m₁⟩ := after
  cases h
  obtain rfl : failed = none := hr
  rfl

/-! ## Tasks -/

theorem Act.exec_bind {α β : Type} (x : Act α) (f : α → Act β) (m : Machine) :
    (x >>= f).exec m = match x.exec m with
      | (.ok a, m₁) => (f a).exec m₁
      | (.error e, m₁) => (.error e, m₁) := by
  show (ExceptT.bind x f).run m = _
  simp only [ExceptT.bind, ExceptT.run, ExceptT.mk, Act.exec]
  show (ExceptT.bindCont f (x m).1) (x m).2 = _
  rcases x m with ⟨_ | a, m₁⟩ <;> rfl

theorem Act.exec_bind_ok {α β : Type} {x : Act α} {f : α → Act β} {b : β}
    (h : (x >>= f).exec m = (.ok b, m')) :
    ∃ a m₁, x.exec m = (.ok a, m₁) ∧ (f a).exec m₁ = (.ok b, m') := by
  rw [Act.exec_bind] at h
  cases hx : x.exec m with
  | mk result m₁ =>
    rw [hx] at h
    cases result with
    | ok a => exact ⟨a, m₁, rfl, h⟩
    | error e => cases h

/-- A computation on the tree leaves the log as it is. -/
theorem Act.exec_onTree {ε α : Type} (e : Edit ε α) (wording : ε → Task.Error) (m : Machine) :
    (Act.onTree e wording).exec m =
      ((e.exec m.tree).1.mapError wording, { m with tree := (e.exec m.tree).2 }) := by
  dsimp only [Act.onTree, Act.exec, ExceptT.run]
  cases e.exec m.tree with
  | mk result t => cases result <;> rfl

theorem Act.onTree_ok {ε α : Type} {e : Edit ε α} {wording : ε → Task.Error} {a : α}
    (h : (Act.onTree e wording).exec m = (.ok a, m')) : e.exec m.tree = (.ok a, m'.tree) := by
  rw [Act.exec_onTree] at h
  cases hexec : e.exec m.tree with
  | mk result t =>
    rw [hexec] at h
    cases result with
    | ok a =>
      cases h
      rfl
    | error e => cases h

theorem Act.onTree_of_ok {ε α : Type} {e : Edit ε α} {wording : ε → Task.Error} {a : α} {t : Tree}
    (h : e.exec m.tree = (.ok a, t)) :
    (Act.onTree e wording).exec m = (.ok a, { m with tree := t }) := by
  rw [Act.exec_onTree, h]
  rfl

theorem perform_clean_of_ok {report : Clean.Report} {t : Tree}
    (h : (Clean.run host.cwd c options.dryRun).exec m.tree = (.ok report, t)) :
    (Task.perform host c options .clean).exec m = (.ok (.clean report), { m with tree := t }) := by
  rw [Task.perform, Act.exec_bind, Act.onTree_of_ok h]
  rfl

theorem perform_compile_of_ok {report : Package.Report} {t : Tree}
    (h : (Package.run host.cwd c).exec m.tree = (.ok report, t)) :
    (Task.perform host c options .compile).exec m =
      (.ok (.compile report), { m with tree := t }) := by
  rw [Task.perform, Act.exec_bind, Act.onTree_of_ok h]
  rfl

theorem perform_clean_ok
    (h : (Task.perform host c options .clean).exec m = (.ok outcome, m')) :
    ∃ report, (Clean.run host.cwd c options.dryRun).exec m.tree = (.ok report, m'.tree) ∧
      outcome = .clean report := by
  obtain ⟨report, m₁, hrun, hend⟩ := Act.exec_bind_ok h
  cases hend
  exact ⟨report, Act.onTree_ok hrun, rfl⟩

theorem perform_compile_ok
    (h : (Task.perform host c options .compile).exec m = (.ok outcome, m')) :
    ∃ report, (Package.run host.cwd c).exec m.tree = (.ok report, m'.tree) ∧
      outcome = .compile report := by
  obtain ⟨report, m₁, hrun, hend⟩ := Act.exec_bind_ok h
  cases hend
  exact ⟨report, Act.onTree_ok hrun, rfl⟩

end Zipship
