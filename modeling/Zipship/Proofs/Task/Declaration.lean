import Zipship.Proofs.Task.Cycle
import Zipship.Proofs.Task.Plan

/-!
# Declarations that say the same

`Mentions` and `Requires` say what can be read off declarations: which tasks there are, and which
need which others directly. Declarations that agree on both make graphs that look the same, however
they are ordered, split or repeated (`alike_of_same_declarations`).

The graphs themselves need not be equal, since they list tasks and what these need in the order in
which that was first declared. But how many tasks there are does not depend on the order, the
prerequisites of a task are given in the order of all tasks, and planning looks at nothing else
(`plan_congr`).
-/

namespace Zipship.Graph

open Relation (TransGen)

variable {g g' : Graph} {declarations first second : List (Task × List Task)} {t q : Task}

/-- A task is declared, or is among the prerequisites of one that is. -/
def Mentions (declarations : List (Task × List Task)) (t : Task) : Prop :=
  ∃ d ∈ declarations, t ∈ d.1 :: d.2

/-! ## How many tasks there are -/

theorem nodup_foldl_insertNew {α : Type} [DecidableEq α] {l : List α} (new : List α)
    (h : l.Nodup) : (new.foldl insertNew l).Nodup := by
  induction new generalizing l with
  | nil => exact h
  | cons a new ih =>
    refine ih ?_
    unfold insertNew
    split_ifs with ha
    · exact h
    · refine List.nodup_append.mpr ⟨h, List.nodup_singleton a, ?_⟩
      rintro x hx y hy rfl
      exact ha (List.mem_singleton.mp hy ▸ hx)

/-- A graph has each task once, and each pair of a task and what it needs. -/
theorem nodup_ofDeclarations : (ofDeclarations declarations).tasks.Nodup ∧
    (ofDeclarations declarations).needs.Nodup := by
  have hfold : ∀ (ds : List (Task × List Task)) (g : Graph), g.tasks.Nodup ∧ g.needs.Nodup →
      (ds.foldl (fun g d => g.declare d.1 d.2) g).tasks.Nodup ∧
        (ds.foldl (fun g d => g.declare d.1 d.2) g).needs.Nodup := by
    intro ds
    induction ds with
    | nil => exact fun g h => h
    | cons d ds ih =>
      exact fun g h => ih _ ⟨nodup_foldl_insertNew _ h.1, nodup_foldl_insertNew _ h.2⟩
  exact hfold declarations ⟨[], []⟩ ⟨List.nodup_nil, List.nodup_nil⟩

/-- The number of tasks depends only on which of them are mentioned. -/
theorem length_tasks_congr (h : ∀ t, Mentions first t ↔ Mentions second t) :
    (ofDeclarations first).tasks.length = (ofDeclarations second).tasks.length := by
  have hmem : ∀ t, t ∈ (ofDeclarations first).tasks ↔ t ∈ (ofDeclarations second).tasks :=
    fun t => mem_tasks_ofDeclarations.trans ((h t).trans mem_tasks_ofDeclarations.symm)
  exact ((List.perm_ext_iff_of_nodup nodup_ofDeclarations.1
    nodup_ofDeclarations.1).mpr hmem).length_eq

/-! ## What planning looks at -/

/-- Prerequisites are given each once, in the order of all tasks. -/
theorem prerequisites_sublist : (g.prerequisites t).Sublist Task.all := List.filter_sublist

/-- Prerequisites are what a task needs, put in the order of all tasks. -/
theorem prerequisites_perm_needed :
    ((ofDeclarations declarations).prerequisites t).Perm
      ((ofDeclarations declarations).needed t) := by
  have hneeded : ((ofDeclarations declarations).needed t).Nodup := by
    refine (nodup_ofDeclarations.2.filter _).map_on fun a ha b hb heq => ?_
    have ha := of_decide_eq_true (List.mem_filter.mp ha).2
    have hb := of_decide_eq_true (List.mem_filter.mp hb).2
    exact Prod.ext (ha.trans hb.symm) heq
  refine (List.perm_ext_iff_of_nodup (prerequisites_sublist.nodup (by decide)) hneeded).mpr
    fun q => ?_
  rw [mem_prerequisites, Needs, needed]
  simp

/-- Prerequisites depend only on what needs what. -/
theorem prerequisites_congr (h : ∀ q, g.Needs t q ↔ g'.Needs t q) :
    g.prerequisites t = g'.prerequisites t :=
  List.filter_congr fun q _ => decide_eq_decide.mpr (h q)

/-- Adding a task to a plan looks at nothing but prerequisites. -/
theorem extend_congr (h : ∀ t, g.prerequisites t = g'.prerequisites t) (fuel : Nat)
    (above plan : List Task) (task : Task) :
    g.extend fuel above plan task = g'.extend fuel above plan task := by
  induction fuel generalizing above plan task with
  | zero => rfl
  | succ fuel ih =>
    have hfold : g.extend fuel (task :: above) = g'.extend fuel (task :: above) := by
      funext plan task
      exact ih _ _ _
    rw [extend, extend, h, hfold]

/-- Planning looks at nothing but prerequisites. -/
theorem plan_congr (h : ∀ t, g.prerequisites t = g'.prerequisites t) (requests : List Task) :
    g.plan requests = g'.plan requests := by
  have hextend : g.extend (Task.all.length + 1) [] = g'.extend (Task.all.length + 1) [] := by
    funext plan task
    exact extend_congr h _ _ _ _
  unfold Graph.plan
  rw [hextend]

/-! ## Graphs of declarations -/

/-- Declarations without a cycle are accepted. -/
theorem accepted_of_acyclic (h : ∀ t, ¬ TransGen (Requires declarations) t t) :
    ofDeclarations? declarations = .ok (ofDeclarations declarations) := by
  unfold ofDeclarations?
  cases hcyclic : (ofDeclarations declarations).cyclic? with
  | none => simp only [hcyclic]
  | some t =>
    have hcycle := cyclic_of_cyclic?_eq_some (fun _ _ => mem_tasks_of_needs) hcyclic
    rw [needs_ofDeclarations] at hcycle
    exact absurd hcycle (h t)

/-- Declarations are accepted with any others that require the same. -/
theorem accepted_congr (h : Requires first = Requires second)
    (haccepted : ofDeclarations? first = .ok g) :
    ofDeclarations? second = .ok (ofDeclarations second) := by
  refine accepted_of_acyclic fun t hcycle => not_cyclic_of_accepted haccepted t ?_
  rwa [(eq_of_accepted haccepted).1, needs_ofDeclarations, h]

/-- **The order of declarations does not matter.** Where two lists of declarations mention the same
tasks and require the same of them directly, either both are rejected, or both are accepted and
their graphs look the same: they have as many tasks, they give each task the same prerequisites,
each once and in the order of all tasks, and they plan any requests in the same way. -/
theorem alike_of_same_declarations (hmentions : ∀ t, Mentions first t ↔ Mentions second t)
    (hrequires : ∀ t q, Requires first t q ↔ Requires second t q) :
    (∃ t u, ofDeclarations? first = .error t ∧ ofDeclarations? second = .error u) ∨
      ∃ g g', ofDeclarations? first = .ok g ∧ ofDeclarations? second = .ok g' ∧
        g.tasks.length = g'.tasks.length ∧
        (∀ t, g.prerequisites t = g'.prerequisites t ∧ (g.prerequisites t).Sublist Task.all ∧
          (g.prerequisites t).Nodup ∧ ∀ q, q ∈ g.prerequisites t ↔ Requires first t q) ∧
        ∀ requests, g.plan requests = g'.plan requests := by
  have heq : Requires first = Requires second := by
    funext t q
    exact propext (hrequires t q)
  cases hfirst : ofDeclarations? first with
  | error t =>
    cases hsecond : ofDeclarations? second with
    | error u => exact Or.inl ⟨t, u, rfl, rfl⟩
    | ok g' =>
      rw [accepted_congr heq.symm hsecond] at hfirst
      cases hfirst
  | ok g =>
    obtain rfl := (eq_of_accepted hfirst).1
    have hprerequisites : ∀ t, (ofDeclarations first).prerequisites t =
        (ofDeclarations second).prerequisites t := by
      refine fun t => prerequisites_congr fun q => ?_
      rw [needs_ofDeclarations, needs_ofDeclarations, heq]
    refine Or.inr ⟨_, _, rfl, accepted_congr heq hfirst, length_tasks_congr hmentions,
      fun t => ⟨hprerequisites t, prerequisites_sublist, ?_, fun q => ?_⟩,
      plan_congr hprerequisites⟩
    · exact (by decide : Task.all.Nodup).sublist prerequisites_sublist
    · rw [mem_prerequisites, needs_ofDeclarations]

/-- What `layered` declares, in another order, and each thing once. -/
def regrouped : List (Task × List Task) :=
  [(.compile, [.clean]), (.testWithCoverage, [.clean, .compile])]

theorem alike_of_same_declarations_layered :
    (∀ t, Mentions layered t ↔ Mentions regrouped t) ∧
      (∀ t q, Requires layered t q ↔ Requires regrouped t q) ∧
      ∃ g g', ofDeclarations? layered = .ok g ∧ ofDeclarations? regrouped = .ok g' ∧ g ≠ g' ∧
        g.tasks.length = g'.tasks.length ∧
        (∀ t, g.prerequisites t = g'.prerequisites t ∧ (g.prerequisites t).Sublist Task.all ∧
          (g.prerequisites t).Nodup ∧ ∀ q, q ∈ g.prerequisites t ↔ Requires layered t q) ∧
        ∀ requests, g.plan requests = g'.plan requests := by
  have hmentions : ∀ t, Mentions layered t ↔ Mentions regrouped t := by
    intro t
    cases t <;> simp [Mentions, layered, regrouped]
  have hrequires : ∀ t q, Requires layered t q ↔ Requires regrouped t q := by
    intro t q
    cases t <;> cases q <;> simp [Requires, layered, regrouped]
  have haccepted : ofDeclarations? layered = .ok (ofDeclarations layered) := by decide
  have hregrouped : ofDeclarations? regrouped = .ok (ofDeclarations regrouped) := by decide
  refine ⟨hmentions, hrequires, ?_⟩
  rcases alike_of_same_declarations hmentions hrequires with ⟨t, -, h, -⟩ | ⟨g, g', h, h', hsame⟩
  · rw [haccepted] at h
    cases h
  · refine ⟨g, g', h, h', ?_, hsame⟩
    rw [haccepted] at h
    rw [hregrouped] at h'
    obtain rfl := Except.ok.inj h
    obtain rfl := Except.ok.inj h'
    decide

end Zipship.Graph
