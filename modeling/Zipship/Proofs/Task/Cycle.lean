import Mathlib.Data.List.Nodup
import Mathlib.Data.List.Perm.Subperm
import Zipship.Proofs.Task.Acyclic

/-!
# Rejected graphs have a cycle

The task that a rejection names lies on a cycle, so with `not_cyclic_of_accepted` declarations are
accepted exactly if they have none (`accepts_iff_acyclic`).

The argument is about the order in which the visit finishes tasks. When it comes to a task, that
task needs everything that was discovered and is not finished yet, directly or through others
(`Visit.Ready`). It goes on to everything that needs the task before it finishes it. So whatever
needs a task is finished earlier, or the task is on a cycle (`Finishes`), and a prerequisite that
the second pass finds misplaced was finished before a task that needs it.
-/

namespace Zipship.Graph

open Relation (TransGen)

variable {g : Graph} {declarations : List (Task × List Task)} {t q x task : Task} {v w : Visit}
  {fuel : Nat} {tasks seen order before after : List Task}

/-! ## The tasks of a graph -/

/-- The tasks of a graph are those that the declarations mention. -/
theorem mem_tasks_ofDeclarations :
    x ∈ (ofDeclarations declarations).tasks ↔ ∃ d ∈ declarations, x ∈ d.1 :: d.2 := by
  have hfold : ∀ (ds : List (Task × List Task)) (g : Graph),
      x ∈ (ds.foldl (fun g d => g.declare d.1 d.2) g).tasks ↔
        x ∈ g.tasks ∨ ∃ d ∈ ds, x ∈ d.1 :: d.2 := by
    intro ds
    induction ds with
    | nil => simp
    | cons d ds ih =>
      intro g
      have hdeclare : x ∈ (g.declare d.1 d.2).tasks ↔ x ∈ g.tasks ∨ x ∈ d.1 :: d.2 :=
        mem_foldl_insertNew _ _
      rw [List.foldl_cons, ih, hdeclare, or_assoc, List.exists_mem_cons_iff]
  simp [ofDeclarations, hfold]

/-- Both sides of every declared prerequisite are tasks of the graph. -/
theorem mem_tasks_of_needs (h : (ofDeclarations declarations).Needs t q) :
    t ∈ (ofDeclarations declarations).tasks ∧ q ∈ (ofDeclarations declarations).tasks := by
  rw [needs_ofDeclarations] at h
  obtain ⟨prerequisites, hmem, hq⟩ := h
  simp only [mem_tasks_ofDeclarations]
  exact ⟨⟨_, hmem, List.mem_cons_self⟩, ⟨_, hmem, List.mem_cons_of_mem _ hq⟩⟩

theorem mem_dependents : t ∈ g.dependents q ↔ g.Needs t q := by
  unfold dependents Needs
  simp

/-! ## The order in which tasks finish -/

/-- An order in which tasks finish, each once: behind everything that needs it, unless it is on a
cycle. -/
inductive Finishes (g : Graph) : List Task → Prop
  | nil : Finishes g []
  | snoc {order : List Task} {x : Task} (h : Finishes g order) (hnew : x ∉ order)
      (hback : ∀ t, g.Needs t x → t ∈ order ∨ TransGen g.Needs x x) : Finishes g (order ++ [x])

namespace Finishes

theorem mem_or_cyclic (h : Finishes g order) (hq : q ∈ order) (hneeds : g.Needs t q) :
    t ∈ order ∨ TransGen g.Needs q q := by
  induction h with
  | nil => cases hq
  | @snoc order x _ _ hback ih =>
    have hfinished : t ∈ order ∨ TransGen g.Needs q q := by
      rcases List.mem_append.mp hq with hq | hq
      · exact ih hq
      · obtain rfl := List.mem_singleton.mp hq
        exact hback t hneeds
    exact hfinished.imp_left fun ht => List.mem_append_left _ ht

/-- What was finished before a task makes such an order, and the task was not among it. -/
theorem of_split (h : Finishes g order) (hsplit : order = before ++ t :: after) :
    Finishes g before ∧ t ∉ before := by
  induction h generalizing after with
  | nil => simp at hsplit
  | @snoc order x h hnew _ ih =>
    rcases List.eq_nil_or_concat after with rfl | ⟨after, y, rfl⟩
    · obtain ⟨rfl, hlast⟩ := List.append_inj' hsplit rfl
      obtain rfl := (List.cons.inj hlast).1
      exact ⟨h, hnew⟩
    · have hlast : order ++ [x] = before ++ t :: after ++ [y] := by
        rw [hsplit, List.concat_eq_append, List.append_assoc, List.cons_append]
      exact ih (List.append_inj' hlast rfl).1

end Finishes

/-- What is misplaced is needed by a task that it does not come before. -/
theorem of_misplaced?_eq_some (h : g.misplaced? seen order = some q) :
    ∃ front t back, order = front ++ t :: back ∧ g.Needs t q ∧ q ≠ t ∧ q ∉ front ∧ q ∉ seen := by
  induction order generalizing seen with
  | nil => cases h
  | cons first rest ih =>
    rw [misplaced?] at h
    split at h
    · rename_i p hfind
      obtain rfl := Option.some.inj h
      have hplaced := List.find?_some hfind
      simp only [decide_eq_true_eq, List.mem_cons, not_or] at hplaced
      exact ⟨[], first, rest, rfl, mem_needed.mp (List.mem_of_find?_eq_some hfind), hplaced.1,
        List.not_mem_nil, hplaced.2⟩
    · obtain ⟨front, t, back, rfl, hneeds, hne, hfront, hseen⟩ := ih h
      rw [List.mem_cons, not_or] at hseen
      exact ⟨first :: front, t, back, rfl, hneeds, hne, by simp [hseen.1, hfront], hseen.2⟩

/-! ## The visit -/

namespace Visit

/-- The visit when it has come to a task. -/
def discover (v : Visit) (t : Task) : Visit := { v with discovered := v.discovered ++ [t] }

/-- The visit when it leaves a task. -/
def finish (v : Visit) (t : Task) : Visit := { v with finished := v.finished ++ [t] }

/-- A visit that has come to a sound state: what it discovered are tasks of the graph, each once,
and what it finished is among them. -/
structure Sound (g : Graph) (v : Visit) : Prop where
  nodup : v.discovered.Nodup
  tasks : v.discovered ⊆ g.tasks
  finished : v.finished ⊆ v.discovered
  finishes : Finishes g v.finished

/-- The visit may go on to a task: it needs everything that is discovered and not finished, and the
bound on the depth is not used up. -/
structure Ready (g : Graph) (fuel : Nat) (v : Visit) (t : Task) : Prop where
  sound : v.Sound g
  task : t ∈ g.tasks
  above : ∀ a ∈ v.discovered, a ∈ v.finished ∨ TransGen g.Needs t a
  bound : g.tasks.length < fuel + v.discovered.length

theorem Sound.discover (h : v.Sound g) (ht : t ∈ g.tasks) (hnew : t ∉ v.discovered) :
    (v.discover t).Sound g where
  nodup := by
    refine List.nodup_append.mpr ⟨h.nodup, List.nodup_singleton _, ?_⟩
    rintro a ha b hb rfl
    exact hnew (List.mem_singleton.mp hb ▸ ha)
  tasks := List.append_subset.mpr ⟨h.tasks, List.cons_subset.mpr ⟨ht, List.nil_subset _⟩⟩
  finished := List.Subset.trans h.finished (List.subset_append_left _ _)
  finishes := h.finishes

theorem Sound.finish (h : v.Sound g) (ht : t ∈ v.discovered) (hnew : t ∉ v.finished)
    (hback : ∀ s, g.Needs s t → s ∈ v.finished ∨ TransGen g.Needs t t) :
    (v.finish t).Sound g where
  nodup := h.nodup
  tasks := h.tasks
  finished := List.append_subset.mpr ⟨h.finished, List.cons_subset.mpr ⟨ht, List.nil_subset _⟩⟩
  finishes := h.finishes.snoc hnew hback

theorem Ready.fuel_ne_zero (h : v.Ready g fuel t) : fuel ≠ 0 := by
  have hle := (h.sound.nodup.subperm h.sound.tasks).length_le
  have hbound := h.bound
  omega

/-- The visit may still go on to a task when it has finished others first. -/
theorem Ready.of_extends (h : v.Ready g fuel t) (hext : v.Extends w) (hsound : w.Sound g) :
    w.Ready g fuel t where
  sound := hsound
  task := h.task
  above a ha := by
    rcases hext.settled a ha with hbefore | hfinished
    · exact (h.above a hbefore).imp_left fun hfinished => hext.finished hfinished
    · exact Or.inl hfinished
  bound := by
    have hle := (h.sound.nodup.subperm hext.discovered).length_le
    have hbound := h.bound
    omega

/-- From a task the visit may go on to whatever needs it. -/
theorem Ready.discover (h : v.Ready g (fuel + 1) task) (hnew : task ∉ v.discovered)
    (ht : t ∈ g.tasks) (hneeds : g.Needs t task) : (v.discover task).Ready g fuel t where
  sound := h.sound.discover h.task hnew
  task := ht
  above a ha := by
    rcases List.mem_append.mp ha with ha | ha
    · exact (h.above a ha).imp_right fun hreach => .head hneeds hreach
    · exact Or.inr (List.mem_singleton.mp ha ▸ .single hneeds)
  bound := by
    have hbound := h.bound
    simp only [Visit.discover, List.length_append, List.length_singleton]
    omega

/-- A task is being visited: it was discovered and is not finished. -/
def Open (v : Visit) (x : Task) : Prop := x ∈ v.discovered ∧ x ∉ v.finished

end Visit

theorem visit_succ (hnew : task ∉ v.discovered) : g.visit (fuel + 1) v task =
    ((g.dependents task).foldl (g.visit fuel) (v.discover task)).finish task := by
  rw [visit, if_neg hnew]
  rfl

/-- What is being visited stays so while other tasks are visited. -/
theorem open_foldl {step : Visit → Task → Visit}
    (hstep : ∀ (v : Visit) (t : Task), v.Open x → (step v t).Open x) (h : v.Open x) :
    (tasks.foldl step v).Open x := by
  induction tasks generalizing v with
  | nil => exact h
  | cons t tasks ih => exact ih (hstep v t h)

theorem open_visit (h : v.Open x) : (g.visit fuel v t).Open x := by
  induction fuel generalizing v t with
  | zero => exact h
  | succ fuel ih =>
    by_cases ht : t ∈ v.discovered
    · rwa [visit, if_pos ht]
    · have hne : x ≠ t := fun heq => ht (heq ▸ h.1)
      have hafter : ((g.dependents t).foldl (g.visit fuel) (v.discover t)).Open x :=
        open_foldl (fun _ _ => ih) ⟨List.mem_append_left _ h.1, h.2⟩
      rw [visit_succ ht]
      exact ⟨hafter.1, by simp [Visit.finish, hafter.2, hne]⟩

/-- Tasks are visited one after another, and all of them are discovered. -/
theorem foldl_sound (hvisit : ∀ v t, v.Ready g fuel t → (g.visit fuel v t).Sound g)
    (hv : v.Sound g) (hready : ∀ t ∈ tasks, v.Ready g fuel t) :
    (tasks.foldl (g.visit fuel) v).Sound g ∧
      tasks ⊆ (tasks.foldl (g.visit fuel) v).discovered := by
  induction tasks generalizing v with
  | nil => exact ⟨hv, List.nil_subset _⟩
  | cons t tasks ih =>
    rw [List.forall_mem_cons] at hready
    obtain ⟨hfirst, hlater⟩ := hready
    have hext := visit_extends g fuel v t
    have hvisited := hvisit v t hfirst
    obtain ⟨hsound, hdiscovered⟩ :=
      ih hvisited fun s hs => (hlater s hs).of_extends hext hvisited
    have ht : t ∈ (g.visit fuel v t).discovered := by
      obtain ⟨fuel, rfl⟩ := Nat.exists_eq_succ_of_ne_zero hfirst.fuel_ne_zero
      exact mem_discovered_visit
    refine ⟨hsound, List.cons_subset.mpr ⟨?_, hdiscovered⟩⟩
    exact (foldl_extends (visit_extends g fuel) tasks _).discovered ht

/-- **A visit of a task stays sound.** What needs the task is discovered by the time the task is
finished. If it is not finished itself by then, it was being visited above the task, which makes a
cycle. -/
theorem sound_visit (htasks : ∀ t q, g.Needs t q → t ∈ g.tasks) (h : v.Ready g fuel task) :
    (g.visit fuel v task).Sound g := by
  induction fuel generalizing v task with
  | zero => exact h.sound
  | succ fuel ih =>
    by_cases hseen : task ∈ v.discovered
    · rw [visit, if_pos hseen]
      exact h.sound
    rw [visit_succ hseen]
    have hready : ∀ t ∈ g.dependents task, (v.discover task).Ready g fuel t := by
      intro t ht
      have hneeds := mem_dependents.mp ht
      exact h.discover hseen (htasks t task hneeds) hneeds
    obtain ⟨hsound, hdependents⟩ :=
      foldl_sound (fun _ _ => ih) (h.sound.discover h.task hseen) hready
    have hext := foldl_extends (visit_extends g fuel) (g.dependents task) (v.discover task)
    have hopen : ((g.dependents task).foldl (g.visit fuel) (v.discover task)).Open task :=
      open_foldl (fun _ _ => open_visit)
        ⟨List.mem_append_right _ List.mem_cons_self, fun hmem => hseen (h.sound.finished hmem)⟩
    refine hsound.finish hopen.1 hopen.2 fun t hneeds => ?_
    rcases hext.settled t (hdependents (mem_dependents.mpr hneeds)) with hbefore | hfinished
    · rcases List.mem_append.mp hbefore with hbefore | hself
      · rcases h.above t hbefore with hfinished | hreach
        · exact Or.inl (hext.finished hfinished)
        · exact Or.inr (hreach.tail hneeds)
      · obtain rfl := List.mem_singleton.mp hself
        exact Or.inr (.single hneeds)
    · exact Or.inl hfinished

/-- The order in which the visit of a whole graph finishes tasks. -/
theorem finishes_visitAll (htasks : ∀ t q, g.Needs t q → t ∈ g.tasks) :
    Finishes g g.visitAll.finished := by
  have hstart : Visit.Sound g ⟨[], []⟩ :=
    ⟨List.nodup_nil, List.nil_subset _, List.nil_subset _, .nil⟩
  have hready : ∀ t ∈ g.tasks, Visit.Ready g (g.tasks.length + 1) ⟨[], []⟩ t :=
    fun t ht => ⟨hstart, ht, by simp, by simp⟩
  exact (foldl_sound (fun _ _ => sound_visit htasks) hstart hready).1.finishes

/-! ## What is rejected -/

/-- A task that is found to be on a cycle is on one. -/
theorem cyclic_of_cyclic?_eq_some (htasks : ∀ t q, g.Needs t q → t ∈ g.tasks ∧ q ∈ g.tasks)
    (h : g.cyclic? = some q) : TransGen g.Needs q q := by
  unfold cyclic? at h
  simp only at h
  split at h
  · rename_i t hself
    obtain rfl := Option.some.inj h
    have hneeds : (t, t) ∈ g.needs := by simpa using List.find?_some hself
    exact .single hneeds
  · obtain ⟨front, t, back, horder, hneeds, hne, hfront, -⟩ := of_misplaced?_eq_some h
    have hsplit : g.visitAll.finished = back.reverse ++ t :: front.reverse := by
      rw [← List.reverse_reverse g.visitAll.finished, horder]
      simp
    obtain ⟨hback, ht⟩ :=
      (finishes_visitAll fun t q hneeds => (htasks t q hneeds).1).of_split hsplit
    have hq : q ∈ back.reverse := by
      have hfinished := (mem_visitAll (htasks t q hneeds).2).2
      rw [← List.mem_reverse, horder] at hfinished
      simpa [hne, hfront] using hfinished
    exact (hback.mem_or_cyclic hq hneeds).resolve_left ht

/-- **Declarations are accepted exactly if no task needs itself**, directly or through others. If
they are rejected, the task that is named needs itself. -/
theorem accepts_iff_acyclic (declarations : List (Task × List Task)) :
    ((∃ g, ofDeclarations? declarations = .ok g) ↔
        ∀ t, ¬ TransGen (Requires declarations) t t) ∧
      ∀ t, ofDeclarations? declarations = .error t → TransGen (Requires declarations) t t := by
  have hrejected : ∀ t, ofDeclarations? declarations = .error t →
      TransGen (Requires declarations) t t := by
    intro t h
    unfold ofDeclarations? at h
    simp only at h
    split at h
    · rename_i s hcyclic
      cases h
      rw [← needs_ofDeclarations]
      exact cyclic_of_cyclic?_eq_some (fun _ _ => mem_tasks_of_needs) hcyclic
    · cases h
  refine ⟨⟨?_, fun hacyclic => ?_⟩, hrejected⟩
  · rintro ⟨g, h⟩ t
    have hnot := not_cyclic_of_accepted h t
    rwa [(eq_of_accepted h).1, needs_ofDeclarations] at hnot
  · cases h : ofDeclarations? declarations with
    | ok g => exact ⟨g, rfl⟩
    | error t => exact absurd (hrejected t h) (hacyclic t)

end Zipship.Graph
