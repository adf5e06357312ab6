import Zipship.Proofs.Task.Plan

/-!
# Planning more

Requests that are added to others go behind what is planned already, and come out as they would on
their own, without what is there (`plan_append`).

`behind base plan` is the plan as it comes out when `base` is there first. Where planning from
nothing has to add a task of `base`, planning on from `base` passes it over. Nothing else is lost by
that, since whatever the task needs is in `base` too. So both ways stay in step (`extend_behind`).
-/

namespace Zipship.Graph

open Relation (TransGen ReflTransGen)

variable {g : Graph} {declarations : List (Task × List Task)}
  {base plan plan' more requests above : List Task} {t task : Task} {fuel : Nat}

/-! ## Plans behind other plans -/

/-- A plan with its tasks behind those of `base`, where they are not among them. -/
def behind (base plan : List Task) : List Task := base ++ plan.filter (· ∉ base)

@[simp] theorem behind_nil : behind base [] = base := List.append_nil base

theorem mem_behind : t ∈ behind base plan ↔ t ∈ base ∨ t ∈ plan := by
  simp only [behind, List.mem_append, List.mem_filter, decide_eq_true_eq]
  by_cases ht : t ∈ base <;> simp [ht]

theorem behind_snoc (ht : t ∉ base) : behind base (plan ++ [t]) = behind base plan ++ [t] := by
  simp [behind, ht]

/-- Nothing comes behind `base` that is in it. -/
theorem behind_append_of_subset (h : more ⊆ base) :
    behind base (plan ++ more) = behind base plan := by
  have hnone : more.filter (· ∉ base) = [] :=
    List.filter_eq_nil_iff.mpr fun t ht => by simpa using h ht
  rw [behind, List.filter_append, hnone, List.append_nil, behind]

/-! ## Planning on -/

/-- What a task adds to a plan is required by it. -/
theorem adds_of_extend (hacyclic : ∀ t, ¬ TransGen g.Needs t t) (habove : above.Nodup)
    (hneeds : ∀ a ∈ above, TransGen g.Needs a task)
    (hfuel : Task.all.length + 1 ≤ fuel + above.length) (hplan : Ordered g plan)
    (h : g.extend fuel above plan task = .ok plan') : Adds g plan [task] plan' := by
  obtain ⟨found, hfound, hadds⟩ := extend_ok hacyclic habove hneeds hfuel hplan
  rw [h] at hfound
  obtain rfl := Except.ok.inj hfound
  exact hadds

/-- A task of `base` adds nothing that is not in `base`. -/
theorem behind_eq_of_adds (hbase : Ordered g base) (ht : task ∈ base)
    (hadds : Adds g plan [task] plan') : behind base plan' = behind base plan := by
  obtain ⟨more, rfl⟩ := hadds.isPrefix
  refine behind_append_of_subset fun t hmem => ?_
  have hnew : t ∉ plan := fun hold =>
    List.disjoint_of_nodup_append hadds.ordered.nodup hold hmem
  obtain ⟨r, hr, hreach⟩ :=
    (hadds.required t (List.mem_append_right _ hmem)).resolve_left hnew
  exact hbase.mem_of_reaches (List.mem_singleton.mp hr ▸ ht) hreach

/-- Requests stay in step if each of them does. -/
theorem foldlM_behind {add : List Task → Task → Except Task (List Task)}
    (hadd : ∀ r ∈ requests, ∀ plan plan', Ordered g plan → add plan r = .ok plan' →
      Ordered g plan' ∧ add (behind base plan) r = .ok (behind base plan'))
    (hplan : Ordered g plan) (h : requests.foldlM add plan = .ok plan') :
    requests.foldlM add (behind base plan) = .ok (behind base plan') := by
  induction requests generalizing plan with
  | nil =>
    obtain rfl := Except.ok.inj h
    rfl
  | cons r requests ih =>
    rw [List.foldlM_cons] at h ⊢
    cases hfirst : add plan r with
    | error e =>
      rw [hfirst] at h
      cases h
    | ok next =>
      rw [hfirst] at h
      obtain ⟨hnext, hstep⟩ := hadd r List.mem_cons_self plan next hplan hfirst
      rw [hstep]
      exact ih (fun r hr => hadd r (List.mem_cons_of_mem _ hr)) hnext h

/-- **A task is added behind `base` as it is added on its own.** -/
theorem extend_behind (hacyclic : ∀ t, ¬ TransGen g.Needs t t) (hbase : Ordered g base)
    (habove : above.Nodup) (hneeds : ∀ a ∈ above, TransGen g.Needs a task)
    (hfuel : Task.all.length + 1 ≤ fuel + above.length) (hplan : Ordered g plan)
    (h : g.extend fuel above plan task = .ok plan') :
    g.extend fuel above (behind base plan) task = .ok (behind base plan') := by
  induction fuel generalizing above plan plan' task with
  | zero => cases h
  | succ fuel ih =>
    have hadds := adds_of_extend hacyclic habove hneeds hfuel hplan h
    have hfresh : task ∉ above := fun hmem => hacyclic task (hneeds task hmem)
    rw [extend] at h ⊢
    by_cases hdone : task ∈ plan
    · rw [if_pos hdone] at h
      obtain rfl := Except.ok.inj h
      rw [if_pos (mem_behind.mpr (Or.inr hdone))]
    by_cases hthere : task ∈ base
    · rw [if_pos (mem_behind.mpr (Or.inl hthere)), behind_eq_of_adds hbase hthere hadds]
    rw [if_neg hdone, if_neg hfresh] at h
    rw [if_neg (fun hmem => (mem_behind.mp hmem).elim hthere hdone), if_neg hfresh]
    have hstep : ∀ q ∈ g.prerequisites task, ∀ plan plan', Ordered g plan →
        g.extend fuel (task :: above) plan q = .ok plan' →
          Ordered g plan' ∧
            g.extend fuel (task :: above) (behind base plan) q = .ok (behind base plan') := by
      intro q hq plan plan' hplan hextend
      have hq := mem_prerequisites.mp hq
      have habove' : (task :: above).Nodup := List.nodup_cons.mpr ⟨hfresh, habove⟩
      have hneeds' : ∀ a ∈ task :: above, TransGen g.Needs a q :=
        List.forall_mem_cons.mpr ⟨.single hq, fun a ha => (hneeds a ha).tail hq⟩
      have hfuel' : Task.all.length + 1 ≤ fuel + (task :: above).length := by
        rw [List.length_cons]
        omega
      exact ⟨(adds_of_extend hacyclic habove' hneeds' hfuel' hplan hextend).ordered,
        ih habove' hneeds' hfuel' hplan hextend⟩
    cases hbefore : (g.prerequisites task).foldlM (g.extend fuel (task :: above)) plan with
    | error e =>
      rw [hbefore] at h
      cases h
    | ok before =>
      rw [hbefore] at h
      obtain rfl := Except.ok.inj h
      rw [foldlM_behind hstep hplan hbefore, behind_snoc hthere]
      rfl

/-- Requests are planned behind what is planned already. -/
theorem plan_append_eq (hacyclic : ∀ t, ¬ TransGen g.Needs t t) {first second : List Task}
    (hfirst : g.plan first = .ok base) (hsecond : g.plan second = .ok plan) :
    g.plan (first ++ second) = .ok (behind base plan) := by
  have hbase : Ordered g base := by
    obtain ⟨found, hfound, hadds⟩ := plan_ok hacyclic first
    rw [hfirst] at hfound
    obtain rfl := Except.ok.inj hfound
    exact hadds.ordered
  have hstep : ∀ r ∈ second, ∀ plan plan', Ordered g plan →
      g.extend (Task.all.length + 1) [] plan r = .ok plan' →
        Ordered g plan' ∧
          g.extend (Task.all.length + 1) [] (behind base plan) r = .ok (behind base plan') :=
    fun r _ plan plan' hplan hextend =>
      ⟨(adds_of_extend hacyclic List.nodup_nil (by simp) (by simp) hplan hextend).ordered,
        extend_behind hacyclic hbase List.nodup_nil (by simp) (by simp) hplan hextend⟩
  have hbehind : second.foldlM (g.extend (Task.all.length + 1) []) (behind base []) =
      .ok (behind base plan) := foldlM_behind hstep .nil hsecond
  rw [behind_nil] at hbehind
  unfold Graph.plan at hfirst ⊢
  rw [List.foldlM_append, hfirst]
  exact hbehind

/-! ## Planning again -/

/-- What is in a plan already adds nothing. -/
theorem foldlM_extend_of_subset (h : requests ⊆ plan) :
    requests.foldlM (g.extend (fuel + 1) above) plan = .ok plan := by
  induction requests with
  | nil => rfl
  | cons r requests ih =>
    obtain ⟨hr, hrequests⟩ := List.cons_subset.mp h
    have hstep : g.extend (fuel + 1) above plan r = .ok plan := by rw [extend, if_pos hr]
    rw [List.foldlM_cons, hstep]
    exact ih hrequests

/-- An ordered plan is planned as it stands. -/
theorem plan_of_ordered (h : Ordered g plan) : g.plan plan = .ok plan := by
  induction h with
  | nil => rfl
  | @snoc plan t _ hnew hneeds ih =>
    have hbefore : (g.prerequisites t).foldlM (g.extend Task.all.length [t]) plan = .ok plan :=
      foldlM_extend_of_subset fun q hq => hneeds q (mem_prerequisites.mp hq)
    have hlast : g.extend (Task.all.length + 1) [] plan t = .ok (plan ++ [t]) := by
      rw [extend, if_neg hnew, if_neg List.not_mem_nil, hbefore]
      rfl
    unfold Graph.plan at ih ⊢
    rw [List.foldlM_append, ih]
    show [t].foldlM (g.extend (Task.all.length + 1) []) plan = .ok (plan ++ [t])
    rw [List.foldlM_cons, hlast]
    rfl

/-- **Planning is compositional.** In an accepted graph, requests that are added to others are
planned behind them, with what their own plan has that is not there yet, in the order of that plan.
And a plan is planned as it stands. -/
theorem plan_append (h : ofDeclarations? declarations = .ok g) (first second : List Task) :
    ∃ plan plan', g.plan first = .ok plan ∧ g.plan second = .ok plan' ∧
      g.plan (first ++ second) = .ok (plan ++ plan'.filter (· ∉ plan)) ∧
      g.plan plan = .ok plan := by
  have hacyclic := not_cyclic_of_accepted h
  obtain ⟨plan, hfirst, hadds⟩ := plan_ok hacyclic first
  obtain ⟨plan', hsecond, -⟩ := plan_ok hacyclic second
  exact ⟨plan, plan', hfirst, hsecond, plan_append_eq hacyclic hfirst hsecond,
    plan_of_ordered hadds.ordered⟩

theorem plan_append_layered : ofDeclarations? layered = .ok (ofDeclarations layered) ∧
    ∃ plan plan', (ofDeclarations layered).plan [.test, .compile] = .ok plan ∧
      (ofDeclarations layered).plan [.testWithCoverage, .test] = .ok plan' ∧
      (ofDeclarations layered).plan ([.test, .compile] ++ [.testWithCoverage, .test]) =
        .ok (plan ++ plan'.filter (· ∉ plan)) ∧
      (ofDeclarations layered).plan plan = .ok plan := by
  have haccepted : ofDeclarations? layered = .ok (ofDeclarations layered) := by decide
  exact ⟨haccepted, plan_append haccepted [.test, .compile] [.testWithCoverage, .test]⟩

end Zipship.Graph
