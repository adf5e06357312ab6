import Mathlib.Data.List.Nodup
import Mathlib.Data.List.Perm.Subperm
import Zipship.Proofs.Task.Acyclic

/-!
# What a plan lists

`Ordered` says how a plan may grow: by a task that is not in it yet and that needs nothing outside
of it. Each request adds to an ordered plan itself and what it needs, at the end (`Adds`,
`extend_ok`), so the result has everything that is required, each once and behind what it needs,
and leaves the requests in their order (`plan_lists_requirements`).

Planning has no failure in a graph without cycles: the tasks that are being added above a task all
need it, so none of them is the task itself, they are all different, and there are never more of
them than the bound allows.
-/

namespace Zipship.Graph

open Relation (TransGen ReflTransGen)

variable {g : Graph} {declarations : List (Task × List Task)} {plan plan' plan'' : List Task}
  {requests : List Task} {t q task : Task}

/-- A plan in which each task is listed once, behind everything that it needs. -/
inductive Ordered (g : Graph) : List Task → Prop
  | nil : Ordered g []
  | snoc {plan : List Task} {t : Task} (h : Ordered g plan) (hnew : t ∉ plan)
      (hneeds : ∀ q, g.Needs t q → q ∈ plan) : Ordered g (plan ++ [t])

namespace Ordered

theorem nodup (h : Ordered g plan) : plan.Nodup := by
  induction h with
  | nil => exact List.nodup_nil
  | snoc _ hnew _ ih => exact List.nodup_append.mpr ⟨ih, List.nodup_singleton _, by
      rintro a ha b hb rfl
      exact hnew (List.mem_singleton.mp hb ▸ ha)⟩

/-- A task is listed behind what it needs. -/
theorem sublist (h : Ordered g plan) (ht : t ∈ plan) (hq : g.Needs t q) : [q, t].Sublist plan := by
  induction h with
  | nil => cases ht
  | @snoc plan last h hnew hneeds ih =>
    rcases List.mem_append.mp ht with ht | ht
    · exact (ih ht).trans (List.sublist_append_left _ _)
    · obtain rfl := List.mem_singleton.mp ht
      exact (List.singleton_sublist.mpr (hneeds q hq)).append (List.Sublist.refl [t])

/-- The first task of a plan needs nothing. -/
theorem not_needs_head (h : Ordered g (t :: plan)) : ¬ g.Needs t q := by
  generalize hl : t :: plan = l at h
  induction h generalizing plan with
  | nil => cases hl
  | @snoc before last _ _ hneeds ih =>
    cases before with
    | nil =>
      obtain rfl : t = last := (List.cons.inj hl).1
      exact fun hq => List.not_mem_nil (hneeds q hq)
    | cons first before =>
      obtain rfl : t = first := (List.cons.inj hl).1
      exact ih rfl

/-- Everything that a listed task needs is listed, also what it needs through others. -/
theorem mem_of_reaches (h : Ordered g plan) (ht : t ∈ plan) (hreach : ReflTransGen g.Needs t q) :
    q ∈ plan := by
  induction hreach with
  | refl => exact ht
  | tail _ hneeds ih => exact (h.sublist ih hneeds).subset List.mem_cons_self

end Ordered

/-- A plan goes on from another one by what is requested and what that needs. -/
structure Adds (g : Graph) (plan requests plan' : List Task) : Prop where
  ordered : Ordered g plan'
  isPrefix : plan <+: plan'
  requested : ∀ r ∈ requests, r ∈ plan'
  required : ∀ t ∈ plan', t ∈ plan ∨ ∃ r ∈ requests, ReflTransGen g.Needs r t

/-- Requests are added one after another. -/
theorem foldlM_adds {add : List Task → Task → Except Task (List Task)}
    (hadd : ∀ r ∈ requests, ∀ plan, Ordered g plan →
      ∃ plan', add plan r = .ok plan' ∧ Adds g plan [r] plan')
    (h : Ordered g plan) : ∃ plan', requests.foldlM add plan = .ok plan' ∧
      Adds g plan requests plan' := by
  induction requests generalizing plan with
  | nil => exact ⟨plan, rfl, h, List.prefix_rfl, by simp, fun t => Or.inl⟩
  | cons r requests ih =>
    obtain ⟨plan₁, hfirst, hone⟩ := hadd r List.mem_cons_self plan h
    obtain ⟨plan₂, hrest, hmore⟩ :=
      ih (fun r hr => hadd r (List.mem_cons_of_mem _ hr)) hone.ordered
    refine ⟨plan₂, ?_, hmore.ordered, hone.isPrefix.trans hmore.isPrefix, ?_, fun t ht => ?_⟩
    · rw [List.foldlM_cons, hfirst]
      exact hrest
    · refine List.forall_mem_cons.mpr ⟨?_, hmore.requested⟩
      exact hmore.isPrefix.subset (hone.requested r List.mem_cons_self)
    · rcases hmore.required t ht with ht | ⟨r', hr', hreach⟩
      · refine (hone.required t ht).imp_right ?_
        rintro ⟨r', hr', hreach⟩
        exact ⟨r', List.mem_singleton.mp hr' ▸ List.mem_cons_self, hreach⟩
      · exact Or.inr ⟨r', List.mem_cons_of_mem _ hr', hreach⟩

theorem mem_prerequisites : q ∈ g.prerequisites t ↔ g.Needs t q := by
  unfold prerequisites Needs
  simp [Task.mem_all]

/-- No more tasks than there are can be different. -/
theorem length_le_of_nodup {above : List Task} (h : above.Nodup) :
    above.length ≤ Task.all.length :=
  (h.subperm fun t _ => Task.mem_all t).length_le

/-- Without cycles a task can be added. What is being added above it needs it, and with the bound
that makes as many tasks as there are, and one more. -/
theorem extend_ok (hacyclic : ∀ t, ¬ TransGen g.Needs t t) {fuel : Nat} {above : List Task}
    (habove : above.Nodup) (hneeds : ∀ a ∈ above, TransGen g.Needs a task)
    (hfuel : Task.all.length + 1 ≤ fuel + above.length) (h : Ordered g plan) :
    ∃ plan', g.extend fuel above plan task = .ok plan' ∧ Adds g plan [task] plan' := by
  induction fuel generalizing above plan task with
  | zero =>
    have hlen := length_le_of_nodup habove
    omega
  | succ fuel ih =>
    have hfresh : task ∉ above := fun hmem => hacyclic task (hneeds task hmem)
    rw [extend]
    by_cases hdone : task ∈ plan
    · rw [if_pos hdone]
      exact ⟨plan, rfl, h, List.prefix_rfl, by simpa using hdone, fun t => Or.inl⟩
    · rw [if_neg hdone, if_neg hfresh]
      have hstep : ∀ q ∈ g.prerequisites task, ∀ plan, Ordered g plan →
          ∃ plan', g.extend fuel (task :: above) plan q = .ok plan' ∧ Adds g plan [q] plan' := by
        intro q hq plan hplan
        have hq := mem_prerequisites.mp hq
        refine ih (List.nodup_cons.mpr ⟨hfresh, habove⟩) ?_ ?_ hplan
        · exact List.forall_mem_cons.mpr ⟨.single hq, fun a ha => (hneeds a ha).tail hq⟩
        · rw [List.length_cons]
          omega
      obtain ⟨plan₁, hbefore, hadds⟩ := foldlM_adds hstep h
      have hnew : task ∉ plan₁ := by
        intro hmem
        rcases hadds.required task hmem with hmem | ⟨q, hq, hreach⟩
        · exact hdone hmem
        · exact hacyclic task (.head' (mem_prerequisites.mp hq) hreach)
      refine ⟨plan₁ ++ [task], ?_, ?_⟩
      · rw [hbefore]
        rfl
      · refine ⟨.snoc hadds.ordered hnew fun q hq => ?_,
          hadds.isPrefix.trans (List.prefix_append _ _), by simp, fun t ht => ?_⟩
        · exact hadds.requested q (mem_prerequisites.mpr hq)
        · rcases List.mem_append.mp ht with ht | ht
          · refine (hadds.required t ht).imp_right ?_
            rintro ⟨q, hq, hreach⟩
            exact ⟨task, List.mem_cons_self, .head (mem_prerequisites.mp hq) hreach⟩
          · exact Or.inr ⟨task, List.mem_cons_self, List.mem_singleton.mp ht ▸ .refl⟩

/-- Without cycles any requests can be added to an ordered plan. -/
theorem foldlM_extend_ok (hacyclic : ∀ t, ¬ TransGen g.Needs t t) (requests : List Task)
    (h : Ordered g plan) : ∃ plan',
      requests.foldlM (g.extend (Task.all.length + 1) []) plan = .ok plan' ∧
        Adds g plan requests plan' :=
  foldlM_adds (fun _ _ _ hplan =>
    extend_ok hacyclic List.nodup_nil (by simp) (by simp) hplan) h

/-- Without cycles any requests can be planned. -/
theorem plan_ok (hacyclic : ∀ t, ¬ TransGen g.Needs t t) (requests : List Task) :
    ∃ plan, g.plan requests = .ok plan ∧ Adds g [] requests plan :=
  foldlM_extend_ok hacyclic requests .nil

/-- A plan for two lists of requests begins with the plan for the first one. -/
theorem plan_append_ok (hacyclic : ∀ t, ¬ TransGen g.Needs t t) (first second : List Task) :
    ∃ plan plan', g.plan first = .ok plan ∧ g.plan (first ++ second) = .ok plan' ∧
      Adds g [] first plan ∧ Adds g plan second plan' := by
  obtain ⟨plan, hfirst, hadds⟩ := plan_ok hacyclic first
  obtain ⟨plan', hsecond, hadds'⟩ := foldlM_extend_ok hacyclic second hadds.ordered
  refine ⟨plan, plan', hfirst, ?_, hadds, hadds'⟩
  unfold Graph.plan at hfirst ⊢
  rw [List.foldlM_append, hfirst]
  exact hsecond

/-- **What a plan lists.** In an accepted graph any requests can be planned. The plan has the tasks
that are required by one of them, directly or through others, and the requests themselves: each
once, behind everything that it needs, and the requests in their order except where one is required
by an earlier one. -/
theorem plan_lists_requirements (h : ofDeclarations? declarations = .ok g)
    (requests : List Task) : ∃ plan, g.plan requests = .ok plan ∧ plan.Nodup ∧
      (∀ t, t ∈ plan ↔ ∃ r ∈ requests, ReflTransGen (Requires declarations) r t) ∧
      (∀ t ∈ plan, ∀ q, Requires declarations t q → [q, t].Sublist plan) ∧
      ∀ before a after b, requests = before ++ a :: after → b ∈ after →
        (∀ r ∈ before ++ [a], ¬ ReflTransGen (Requires declarations) r b) →
        [a, b].Sublist plan := by
  have hacyclic := not_cyclic_of_accepted h
  obtain ⟨plan, hplan, hadds⟩ := plan_ok hacyclic requests
  have hneeds : Requires declarations = g.Needs := by
    rw [(eq_of_accepted h).1, needs_ofDeclarations]
  rw [hneeds]
  refine ⟨plan, hplan, hadds.ordered.nodup, fun t => ⟨fun ht => ?_, ?_⟩,
    fun t ht q hq => hadds.ordered.sublist ht hq, ?_⟩
  · exact (hadds.required t ht).resolve_left List.not_mem_nil
  · rintro ⟨r, hr, hreach⟩
    exact hadds.ordered.mem_of_reaches (hadds.requested r hr) hreach
  · rintro before a after b rfl hb hfree
    -- what is planned up to `a` has no `b`, so `b` comes with what is planned behind it
    obtain ⟨first, whole, -, hwhole, hfirst, hmore⟩ :=
      plan_append_ok hacyclic (before ++ [a]) after
    rw [List.append_assoc, List.singleton_append, hplan] at hwhole
    obtain rfl := Except.ok.inj hwhole
    obtain ⟨rest, rfl⟩ := hmore.isPrefix
    have hnot : b ∉ first := by
      intro hmem
      obtain ⟨r, hr, hreach⟩ := (hfirst.required b hmem).resolve_left List.not_mem_nil
      exact hfree r hr hreach
    have hrest : b ∈ rest :=
      (List.mem_append.mp (hmore.requested b hb)).resolve_left hnot
    exact (List.singleton_sublist.mpr (hfirst.requested a (by simp))).append
      (List.singleton_sublist.mpr hrest)

/-- Of the tasks of a project, each but the one that cleans needs that one. -/
theorem needs_clean (ht : t ≠ .clean) : standard.Needs t .clean := by
  unfold Needs
  cases t with
  | clean => exact absurd rfl ht
  | compile | test | testWithCoverage => decide

/-- Whatever is requested of a project, nothing comes before cleaning, and it is done once. -/
theorem clean_first (h : standard.plan requests = .ok plan) :
    plan = [] ∨ ∃ rest, plan = .clean :: rest ∧ .clean ∉ rest := by
  obtain ⟨found, hfound, hadds⟩ :=
    plan_ok (not_cyclic_of_accepted ofDeclarations?_standard) requests
  rw [h] at hfound
  obtain rfl := Except.ok.inj hfound
  cases plan with
  | nil => exact Or.inl rfl
  | cons first rest =>
    have hfirst : first = .clean := by
      by_contra hne
      exact hadds.ordered.not_needs_head (needs_clean hne)
    exact Or.inr ⟨rest, by rw [hfirst], hfirst ▸ (List.nodup_cons.mp hadds.ordered.nodup).1⟩

/-- Declarations in which a task is mentioned only as a prerequisite, and one twice. -/
def layered : List (Task × List Task) :=
  [(.testWithCoverage, [.compile, .compile]), (.compile, [.clean]), (.testWithCoverage, [.clean])]

theorem plan_lists_requirements_layered : ofDeclarations? layered = .ok (ofDeclarations layered) ∧
    ∃ plan, (ofDeclarations layered).plan [.testWithCoverage, .test, .clean, .test] = .ok plan ∧
      plan.Nodup ∧
      (∀ t, t ∈ plan ↔ ∃ r ∈ [Task.testWithCoverage, .test, .clean, .test],
        ReflTransGen (Requires layered) r t) ∧
      (∀ t ∈ plan, ∀ q, Requires layered t q → [q, t].Sublist plan) ∧
      [Task.testWithCoverage, .test].Sublist plan := by
  have haccepted : ofDeclarations? layered = .ok (ofDeclarations layered) := by decide
  obtain ⟨plan, hplan, hnodup, hmem, hbehind, horder⟩ :=
    plan_lists_requirements haccepted [.testWithCoverage, .test, .clean, .test]
  refine ⟨haccepted, plan, hplan, hnodup, hmem, hbehind, ?_⟩
  refine horder [] .testWithCoverage [.test, .clean, .test] .test rfl (by simp) ?_
  -- nothing needs the tests without coverage
  have hnever : ∀ t, ¬ Requires layered t .test := by
    rintro t ⟨prerequisites, hdeclared, hq⟩
    revert hq
    simp only [layered, List.mem_cons, List.not_mem_nil, or_false, Prod.mk.injEq] at hdeclared
    rcases hdeclared with ⟨-, rfl⟩ | ⟨-, rfl⟩ | ⟨-, rfl⟩ <;> decide
  intro r hr hreach
  obtain rfl := List.mem_singleton.mp hr
  rcases hreach.cases_tail with heq | ⟨t, -, hrequires⟩
  · cases heq
  · exact hnever t hrequires

end Zipship.Graph
