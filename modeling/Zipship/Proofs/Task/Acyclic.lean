import Mathlib.Data.List.Basic
import Mathlib.Logic.Relation
import Mathlib.Tactic.Common
import Zipship.Task.Graph

/-!
# Accepted graphs have no cycle

`Requires` says of declarations which task needs which other one directly. A graph keeps exactly
that (`needs_ofDeclarations`). It is accepted only if the search for a cycle finds none, and then
there is none (`not_cyclic_of_accepted`): the visit finishes every task, and in the order from the
last finished to the first, each prerequisite comes before the task that needs it.
-/

namespace Zipship.Graph

variable {g : Graph} {declarations : List (Task × List Task)} {t q task : Task}
  {v v' v'' : Visit} {fuel : Nat} {seen order : List Task}

/-! ## What a graph keeps of its declarations -/

/-- A task needs another one directly: one of the declarations says so. -/
def Requires (declarations : List (Task × List Task)) (t q : Task) : Prop :=
  ∃ prerequisites, (t, prerequisites) ∈ declarations ∧ q ∈ prerequisites

/-- A task of a graph needs another one directly. -/
def Needs (g : Graph) (t q : Task) : Prop := (t, q) ∈ g.needs

theorem mem_foldl_insertNew {α : Type} [DecidableEq α] {x : α} (new l : List α) :
    x ∈ new.foldl insertNew l ↔ x ∈ l ∨ x ∈ new := by
  induction new generalizing l with
  | nil => simp
  | cons a new ih =>
    have hinsert : x ∈ insertNew l a ↔ x ∈ l ∨ x = a := by
      unfold insertNew
      split_ifs with ha
      · exact ⟨Or.inl, fun h => h.elim id fun he => he ▸ ha⟩
      · simp
    rw [List.foldl_cons, ih, hinsert, List.mem_cons, or_assoc]

theorem needs_declare {prerequisites : List Task} : (g.declare task prerequisites).Needs t q ↔
    g.Needs t q ∨ t = task ∧ q ∈ prerequisites := by
  unfold Needs declare
  rw [mem_foldl_insertNew, List.mem_map]
  simp only [Prod.mk.injEq, exists_eq_right_right]
  rw [and_comm, eq_comm]

/-- A graph keeps which task needs which other one, and nothing else. -/
theorem needs_ofDeclarations : (ofDeclarations declarations).Needs = Requires declarations := by
  have hfold : ∀ (ds : List (Task × List Task)) (g : Graph) (t q : Task),
      (ds.foldl (fun g d => g.declare d.1 d.2) g).Needs t q ↔ g.Needs t q ∨ Requires ds t q := by
    intro ds
    induction ds with
    | nil => simp [Requires]
    | cons d ds ih =>
      intro g t q
      rw [List.foldl_cons, ih, needs_declare, or_assoc]
      refine or_congr_right ?_
      constructor
      · rintro (⟨rfl, hq⟩ | ⟨prerequisites, hmem, hq⟩)
        · exact ⟨d.2, List.mem_cons_self, hq⟩
        · exact ⟨prerequisites, List.mem_cons_of_mem _ hmem, hq⟩
      · rintro ⟨prerequisites, hmem, hq⟩
        rcases List.mem_cons.mp hmem with rfl | hmem
        · exact Or.inl ⟨rfl, hq⟩
        · exact Or.inr ⟨prerequisites, hmem, hq⟩
  funext t q
  refine propext ((hfold declarations ⟨[], []⟩ t q).trans ?_)
  simp [Needs]

/-- What needs something is one of the tasks of the graph. -/
theorem mem_tasks_of_requires (h : Requires declarations t q) :
    t ∈ (ofDeclarations declarations).tasks := by
  have hfold : ∀ (ds : List (Task × List Task)) (g : Graph),
      t ∈ g.tasks ∨ (∃ prerequisites, (t, prerequisites) ∈ ds) →
        t ∈ (ds.foldl (fun g d => g.declare d.1 d.2) g).tasks := by
    intro ds
    induction ds with
    | nil => simp
    | cons d ds ih =>
      intro g hmem
      refine ih _ ?_
      rcases hmem with hmem | ⟨prerequisites, hmem⟩
      · exact Or.inl ((mem_foldl_insertNew _ _).mpr (Or.inl hmem))
      · rcases List.mem_cons.mp hmem with rfl | hmem
        · exact Or.inl ((mem_foldl_insertNew _ _).mpr (Or.inr List.mem_cons_self))
        · exact Or.inr ⟨prerequisites, hmem⟩
  obtain ⟨prerequisites, hmem, -⟩ := h
  exact hfold _ _ (Or.inr ⟨prerequisites, hmem⟩)

theorem mem_needed : q ∈ g.needed t ↔ g.Needs t q := by
  unfold needed Needs
  simp

/-! ## The visit -/

/-- One visit goes on from another one: nothing is forgotten, and what it discovered is finished. -/
structure Visit.Extends (v v' : Visit) : Prop where
  discovered : v.discovered ⊆ v'.discovered
  finished : v.finished ⊆ v'.finished
  settled : ∀ x ∈ v'.discovered, x ∈ v.discovered ∨ x ∈ v'.finished

theorem Visit.Extends.refl (v : Visit) : v.Extends v :=
  ⟨List.Subset.refl _, List.Subset.refl _, fun _ => Or.inl⟩

theorem Visit.Extends.trans (h : v.Extends v') (h' : v'.Extends v'') : v.Extends v'' where
  discovered := List.Subset.trans h.discovered h'.discovered
  finished := List.Subset.trans h.finished h'.finished
  settled x hx := by
    rcases h'.settled x hx with hx | hx
    · exact (h.settled x hx).imp_right fun hfin => h'.finished hfin
    · exact Or.inr hx

theorem foldl_extends {step : Visit → Task → Visit}
    (hstep : ∀ (v : Visit) (t : Task), v.Extends (step v t))
    (tasks : List Task) (v : Visit) : v.Extends (tasks.foldl step v) := by
  induction tasks generalizing v with
  | nil => exact .refl v
  | cons t tasks ih => exact (hstep v t).trans (ih _)

/-- A visit of a task goes on from what was visited before. -/
theorem visit_extends (g : Graph) (fuel : Nat) (v : Visit) (t : Task) :
    v.Extends (g.visit fuel v t) := by
  induction fuel generalizing v t with
  | zero => exact .refl v
  | succ fuel ih =>
    unfold visit
    split_ifs with ht
    · exact .refl v
    · have hfold := foldl_extends ih (g.dependents t) { v with discovered := v.discovered ++ [t] }
      refine ⟨List.Subset.trans (List.subset_append_left _ _) hfold.discovered,
        List.Subset.trans hfold.finished (List.subset_append_left _ _), fun x hx => ?_⟩
      rcases hfold.settled x hx with hx | hx
      · exact (List.mem_append.mp hx).imp_right fun hx => List.mem_append_right _ hx
      · exact Or.inr (List.mem_append_left _ hx)

theorem mem_discovered_visit : t ∈ (g.visit (fuel + 1) v t).discovered := by
  unfold visit
  split_ifs with ht
  · exact ht
  · exact (foldl_extends (g.visit_extends fuel) _ _).discovered (by simp)

/-- The visit of a graph discovers and finishes every task. -/
theorem mem_visitAll (h : t ∈ g.tasks) :
    t ∈ g.visitAll.discovered ∧ t ∈ g.visitAll.finished := by
  have hall := foldl_extends (g.visit_extends (g.tasks.length + 1)) g.tasks ⟨[], []⟩
  have hdiscovered : t ∈ g.visitAll.discovered := by
    obtain ⟨before, after, htasks⟩ := List.append_of_mem h
    have hsplit : g.visitAll = (before ++ t :: after).foldl (g.visit (g.tasks.length + 1))
        ⟨[], []⟩ := by
      rw [← htasks]
      rfl
    rw [hsplit, List.foldl_append, List.foldl_cons]
    exact (foldl_extends (g.visit_extends _) _ _).discovered mem_discovered_visit
  exact ⟨hdiscovered, (hall.settled t hdiscovered).resolve_left List.not_mem_nil⟩

/-! ## The order in which tasks finish -/

/-- In an order in which nothing is misplaced, a task comes behind what it needs, if it does not
need itself. -/
theorem mem_of_misplaced?_eq_none {front back : List Task}
    (h : g.misplaced? seen (front ++ t :: back) = none) (hq : g.Needs t q) (hne : q ≠ t) :
    q ∈ seen ∨ q ∈ front := by
  induction front generalizing seen with
  | nil =>
    rw [List.nil_append, misplaced?] at h
    split at h
    · cases h
    · rename_i hfind
      have hplaced := List.find?_eq_none.mp hfind q (mem_needed.mpr hq)
      simp only [decide_eq_true_eq, not_not, List.mem_cons] at hplaced
      exact Or.inl (hplaced.resolve_left hne)
  | cons first front ih =>
    rw [List.cons_append, misplaced?] at h
    split at h
    · cases h
    · rcases ih h with hmem | hmem
      · rcases List.mem_cons.mp hmem with rfl | hmem
        · exact Or.inr List.mem_cons_self
        · exact Or.inl hmem
      · exact Or.inr (List.mem_cons_of_mem _ hmem)

/-- Where the search finds no cycle, there is an order in which each task has a later place than
what it needs. -/
theorem idxOf_lt_of_cyclic?_eq_none (hcyclic : g.cyclic? = none) (ht : t ∈ g.tasks)
    (h : g.Needs t q) :
    g.visitAll.finished.reverse.idxOf q < g.visitAll.finished.reverse.idxOf t := by
  obtain ⟨hdiscovered, hfinished⟩ := mem_visitAll ht
  unfold cyclic? at hcyclic
  simp only at hcyclic
  split at hcyclic
  · cases hcyclic
  · rename_i hself
    have hne : q ≠ t := by
      rintro rfl
      have hno := List.find?_eq_none.mp hself q hdiscovered
      exact hno (decide_eq_true h)
    obtain ⟨front, back, horder, hfirst⟩ :=
      List.eq_append_cons_of_mem (List.mem_reverse.mpr hfinished)
    rw [horder] at hcyclic ⊢
    have hfront : q ∈ front :=
      (mem_of_misplaced?_eq_none hcyclic h hne).resolve_left List.not_mem_nil
    rw [List.idxOf_append_of_mem hfront, List.idxOf_append_of_notMem hfirst, List.idxOf_cons_self]
    have hlt := List.idxOf_lt_length_of_mem hfront
    omega

theorem eq_of_accepted (h : ofDeclarations? declarations = .ok g) :
    g = ofDeclarations declarations ∧ g.cyclic? = none := by
  unfold ofDeclarations? at h
  simp only at h
  split at h
  · cases h
  · rename_i hcyclic
    cases h
    exact ⟨rfl, hcyclic⟩

/-- **In an accepted graph no task needs itself**, directly or through others. -/
theorem not_cyclic_of_accepted (h : ofDeclarations? declarations = .ok g) (t : Task) :
    ¬ Relation.TransGen g.Needs t t := by
  obtain ⟨rfl, hcyclic⟩ := eq_of_accepted h
  have hdown {a b : Task} (hab : Relation.TransGen (ofDeclarations declarations).Needs a b) :
      (ofDeclarations declarations).visitAll.finished.reverse.idxOf b <
        (ofDeclarations declarations).visitAll.finished.reverse.idxOf a := by
    have hstep {a b : Task} (hab : (ofDeclarations declarations).Needs a b) :=
      have hrequires : Requires declarations a b := needs_ofDeclarations ▸ hab
      idxOf_lt_of_cyclic?_eq_none hcyclic (mem_tasks_of_requires hrequires) hab
    induction hab with
    | single hab => exact hstep hab
    | tail _ hbc ih => exact Nat.lt_trans (hstep hbc) ih
  exact fun hcycle => Nat.lt_irrefl _ (hdown hcycle)

end Zipship.Graph
