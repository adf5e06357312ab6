import Zipship.Proofs.Clean.Passes
import Zipship.Tree.Layout

/-!
# Cleaning removes the transient artifacts and nothing else

`Transient` says by location what cleaning is for. A run that succeeds leaves exactly the rest of
the tree, and lists the topmost transient places in order (`run_leaves_exactly`).
-/

namespace Zipship.Clean

variable {t t' t₁ : Tree} {cwd root l : Loc} {c : Config} {report : Report}
  {names q : List Name} {name : Name}

/-- What cleaning removes: locations at or below `root`, links not followed. -/
inductive Transient (t : Tree) (root : Loc) : Loc → Prop
  /-- The work of a local continuous integration run, the build output and the coverage data,
  whatever stands there. -/
  | fixed {name : Name} {rest : List Name}
      (h : name ∈ ([".local-ci", "target", ".coverage"] : List Name)) :
      Transient t root (root ++ name :: rest)
  /-- A real directory of compiled files with everything in it. -/
  | cacheDirectory {above rest : List Name}
      (h : t.get? (root ++ (above ++ (["__pycache__"] : List Name))) = some .dir) :
      Transient t root (root ++ (above ++ ("__pycache__" : Name) :: rest))
  /-- A compiled file, or a link with the name of one. -/
  | compiled {above : List Name} {stem extension : Bytes} {node : Node}
      (h : t.get? (root ++ (above ++ [stem ++ extension])) = some node) (hnode : node ≠ .dir)
      (hstem : stem ≠ []) (hextension : extension ∈ ([".pyc", ".pyo"] : List Bytes)) :
      Transient t root (root ++ (above ++ [stem ++ extension]))

theorem Transient.isPrefix (h : Transient t root l) : root <+: l := by
  cases h <;> exact List.prefix_append _ _

/-! ## Transient places and what the search stops at -/

theorem transient_of_isFixed (h : IsFixed q) (hq : q <+: names) :
    Transient t root (root ++ names) := by
  obtain ⟨fixed, hmem, rfl⟩ := h
  obtain ⟨rest, rfl⟩ := hq
  exact .fixed hmem

theorem transient_of_isCache (h : IsCache t root q) (hq : q <+: names)
    (hsome : (t.get? (root ++ names)).isSome) : Transient t root (root ++ names) := by
  obtain ⟨above, name, node, rfl, hget, hname⟩ := h
  obtain ⟨rest, rfl⟩ := hq
  rcases Node.isBytecode_iff.mp hname with
    ⟨rfl, rfl⟩ | ⟨hnode, stem, extension, hstem, hextension, rfl⟩
  · rw [List.append_assoc]
    exact .cacheDirectory hget
  · have hrest : rest = [] := by
      by_contra hne
      obtain ⟨below, hbelow⟩ := Option.isSome_iff_exists.mp hsome
      rw [← List.append_assoc] at hbelow
      rw [Tree.get?_eq_dir_of_append hbelow hne] at hget
      exact hnode (Option.some.inj hget).symm
    subst hrest
    rw [List.append_nil]
    exact .compiled hget hnode hstem hextension

theorem transient_self (h : IsFixed q ∨ IsCache t root q) : Transient t root (root ++ q) := by
  rcases h with h | h
  · exact transient_of_isFixed h List.prefix_rfl
  · obtain ⟨above, name, node, heq, hget, -⟩ := id h
    exact transient_of_isCache h List.prefix_rfl (Option.isSome_of_mem hget)

/-- A transient place is at or below something that the search stops at. -/
theorem stop_of_transient (h : Transient t root (root ++ names)) :
    ∃ q, q <+: names ∧ (IsFixed q ∨ IsCache t root q) := by
  generalize hl : root ++ names = l at h
  cases h with
  | @fixed name rest h =>
    rw [List.append_cancel_left hl]
    exact ⟨[name], ⟨rest, rfl⟩, Or.inl ⟨name, h, rfl⟩⟩
  | @cacheDirectory above rest h =>
    rw [List.append_cancel_left hl]
    refine ⟨above ++ [Name.cacheDirectory], ⟨rest, List.append_assoc _ _ _⟩,
      Or.inr ((isCache_snoc h).mpr ?_)⟩
    exact Node.isBytecode_iff.mpr (Or.inl ⟨rfl, rfl⟩)
  | @compiled above stem extension node h hnode hstem hextension =>
    rw [List.append_cancel_left hl]
    refine ⟨_, List.prefix_rfl, Or.inr ((isCache_snoc h).mpr ?_)⟩
    exact Node.isBytecode_iff.mpr (Or.inr ⟨hnode, stem, extension, hstem, hextension, rfl⟩)

/-- The first thing that the search stops at on the way to `q` is a fixed place or is found. -/
theorem exists_topmost (h : IsFixed q ∨ IsCache t root q) :
    ∃ top, top <+: q ∧ (IsFixed top ∨ top ∈ cachesBelow t root) := by
  induction hlen : q.length using Nat.strong_induction_on generalizing q with
  | _ len ih =>
    by_cases hstop : ∃ p, p <+: q ∧ p ≠ q ∧ (IsFixed p ∨ IsCache t root p)
    · obtain ⟨p, hp, hne, hp'⟩ := hstop
      have hlt : p.length < len := by
        rw [← hlen]
        exact lt_of_le_of_ne hp.length_le fun he => hne (hp.eq_of_length he)
      obtain ⟨top, htop, htop'⟩ := ih p.length hlt hp' rfl
      exact ⟨top, htop.trans hp, htop'⟩
    · refine ⟨q, List.prefix_rfl, h.imp_right fun hc => mem_cachesBelow.mpr ⟨hc, ?_⟩⟩
      intro p hp _ hne
      exact ⟨fun hc' => hstop ⟨p, hp, hne, Or.inr hc'⟩, fun hf => hstop ⟨p, hp, hne, Or.inl hf⟩⟩

/-- The topmost transient places are the fixed ones and those that the search finds. -/
theorem topmost_iff (hsome : (t.get? (root ++ names)).isSome) :
    (Transient t root (root ++ names) ∧
        ∀ q, q <+: names → q ≠ names → ¬ Transient t root (root ++ q)) ↔
      IsFixed names ∨ names ∈ cachesBelow t root := by
  constructor
  · rintro ⟨htrans, htop⟩
    obtain ⟨q, hq, hstop⟩ := stop_of_transient htrans
    obtain ⟨top, hpre, htop'⟩ := exists_topmost hstop
    have heq : top = names := by
      by_contra hne
      refine htop top (hpre.trans hq) hne (transient_self ?_)
      exact htop'.imp_right fun hc => (mem_cachesBelow.mp hc).1
    rwa [← heq]
  · intro h
    refine ⟨transient_self (h.imp_right fun hc => (mem_cachesBelow.mp hc).1), ?_⟩
    intro q hq hne htrans
    obtain ⟨p, hp, hstop⟩ := stop_of_transient htrans
    have hpne : p ≠ names := fun he => hne (hq.eq_of_length_le (he ▸ hp.length_le))
    rcases h with ⟨fixed, -, rfl⟩ | hc
    · refine hstop.elim IsFixed.ne_nil IsCache.ne_nil (List.eq_nil_of_length_eq_zero ?_)
      have hlt := lt_of_le_of_ne (hp.trans hq).length_le fun he =>
        hpne ((hp.trans hq).eq_of_length he)
      simpa using hlt
    · obtain ⟨hcache, hfixed⟩ :=
        (mem_cachesBelow.mp hc).2 p (hp.trans hq) ((hstop.elim IsFixed.ne_nil IsCache.ne_nil)) hpne
      exact hstop.elim hfixed hcache

/-- The list of what is removed: the fixed places where something is, and what the search finds. -/
theorem mem_removed : names ∈ ((fixedNames.map fun n => [n]).filter fun names =>
      (t.get? (root ++ names)).isSome) ++ cachesBelow t root ↔
    (t.get? (root ++ names)).isSome ∧ (IsFixed names ∨ names ∈ cachesBelow t root) := by
  have hfixed : names ∈ fixedNames.map (fun n => [n]) ↔ IsFixed names := by
    simp only [List.mem_map, IsFixed, eq_comm]
  have hcache (h : names ∈ cachesBelow t root) : (t.get? (root ++ names)).isSome = true := by
    obtain ⟨-, -, node, -, hget, -⟩ := (mem_cachesBelow.mp h).1
    exact Option.isSome_of_mem hget
  rw [List.mem_append, List.mem_filter, hfixed]
  constructor
  · rintro (⟨h, hsome⟩ | h)
    · exact ⟨hsome, Or.inl h⟩
    · exact ⟨hcache h, Or.inr h⟩
  · rintro ⟨hsome, h | h⟩
    · exact Or.inl ⟨h, hsome⟩
    · exact Or.inr h

/-! ## What a run leaves -/

/-- What is no directory cannot be cleaned: the first fixed place cannot be looked at. -/
theorem isDir_of_run_ok {node : Node} (hget : t.get? root = some node)
    (hlink : ∀ target, node ≠ .link target) (hroot : c.root = root.path)
    (h : (run cwd c false).exec t = (.ok report, t')) : node = .dir := by
  have hspell : (c.root.child Config.localCiName).Spells (root ++ [Config.localCiName]) := by
    rw [hroot]
    exact (Loc.spells_path (Tree.isPiece_of_get? hget)).child ⟨by decide, by decide⟩
  unfold run at h
  obtain ⟨fixed, t₁, hfixed, -⟩ := Edit.exec_bind_ok h
  have hsweeps : (sweepAll cwd false (c.root.child Config.localCiName ::
      [c.root.child Config.targetName, c.root.child Config.coverageDataName])).exec t =
        (.ok fixed, t₁) := hfixed
  rw [sweepAll] at hsweeps
  obtain ⟨size, t₂, hsweep, -⟩ := Edit.exec_bind_ok hsweeps
  rw [exec_sweep] at hsweep
  by_contra hnode
  rcases Tree.checkPath_cases hspell.bytes_ne with hc | ⟨e, hc, he⟩
  · rw [Tree.locate_spelled_notDir hspell hc (Name.isEntry_of_valid (by decide)) hget hlink
      hnode] at hsweep
    cases hsweep
  · rw [Tree.locate_refused hc] at hsweep
    simp only [if_neg he] at hsweep
    cases hsweep

/-- The fixed places and what the search finds cover the transient places. -/
theorem exists_removed_of_transient (h : Transient t root l) :
    ∃ q, (IsFixed q ∨ q ∈ cachesBelow t root) ∧ root ++ q <+: l := by
  obtain ⟨names, rfl⟩ := h.isPrefix
  obtain ⟨q, hq, hstop⟩ := stop_of_transient h
  obtain ⟨top, hpre, htop⟩ := exists_topmost hstop
  exact ⟨top, htop, (List.prefix_append_right_inj root).mpr (hpre.trans hq)⟩

/-- Whatever stands at or below a fixed place or something that the search finds is transient. -/
theorem transient_of_removed {q : List Name} (hsome : (t.get? l).isSome)
    (h : IsFixed q ∨ q ∈ cachesBelow t root) (hpre : root ++ q <+: l) : Transient t root l := by
  obtain ⟨rest, rfl⟩ := hpre
  rw [List.append_assoc] at hsome ⊢
  rcases h with h | h
  · exact transient_of_isFixed h (List.prefix_append q rest)
  · exact transient_of_isCache (mem_cachesBelow.mp h).1 (List.prefix_append q rest) hsome

/-- **Cleaning removes exactly the transient artifacts.** What is transient is gone and everything
else is as it was. The list of what was removed names the topmost transient places, of which none
is inside another: first the fixed ones in their order, then the others in lexicographic order of
the names that lead to them, that is depth first with siblings in byte order. -/
theorem run_leaves_exactly (hdir : t.get? root = some .dir) (hroot : c.root = root.path)
    (h : (run cwd c false).exec t = (.ok report, t')) :
    (∀ l, (Transient t root l → t'.get? l = none) ∧
        (¬ Transient t root l → t'.get? l = t.get? l)) ∧
      ∃ fixed caches : List (List Name),
        report.removed = (fixed ++ caches).map c.root.descend ∧
        (∀ names, names ∈ fixed ++ caches ↔ (t.get? (root ++ names)).isSome ∧
          Transient t root (root ++ names) ∧
            ∀ q, q <+: names → q ≠ names → ¬ Transient t root (root ++ q)) ∧
        (fixed ++ caches).Pairwise (fun a b => ¬ a <+: b ∧ ¬ b <+: a) ∧
        fixed = ([[".local-ci"], ["target"], [".coverage"]] : List Loc).filter (fun names =>
          (t.get? (root ++ names)).isSome) ∧
        caches.Pairwise (List.Lex (· < ·)) := by
  obtain ⟨hremoved, hview⟩ := run_ok hdir hroot h
  refine ⟨fun l => ⟨fun htrans => ?_, fun hkeep => ?_⟩, _, _, hremoved, fun names => ?_, ?_, rfl,
    cachesBelow_pairwise⟩
  · exact (hview l).1 (exists_removed_of_transient htrans)
  · by_cases hsome : (t.get? l).isSome
    · exact (hview l).2 fun q hq hpre => hkeep (transient_of_removed hsome hq hpre)
    · have hnone : t.get? l = none := by simpa using hsome
      by_cases hin : ∃ q, (IsFixed q ∨ q ∈ cachesBelow t root) ∧ root ++ q <+: l
      · rw [(hview l).1 hin, hnone]
      · exact (hview l).2 fun q hq hpre => hin ⟨q, hq, hpre⟩
  · rw [mem_removed]
    exact and_congr_right fun hsome => (topmost_iff hsome).symm
  · refine List.pairwise_append.mpr ⟨?_, cachesBelow_apart, ?_⟩
    · exact List.Pairwise.filter _ (by decide)
    · intro a ha b hb
      obtain ⟨fixed, hmem, rfl⟩ := List.mem_map.mp (List.mem_of_mem_filter ha)
      obtain ⟨hcache, hbefore⟩ := mem_cachesBelow.mp hb
      have hne : [fixed] ≠ b := fun he => hcache.not_isFixed ⟨fixed, hmem, he.symm⟩
      refine ⟨fun hpre => (hbefore _ hpre (by simp) hne).2 ⟨fixed, hmem, rfl⟩, fun hpre => ?_⟩
      refine hne (hpre.eq_of_length_le ?_).symm
      exact List.length_pos_iff.mpr hcache.ne_nil

/-- A project with transient artifacts, with things that only look like ones, and with a link. -/
def cluttered : Tree :=
  Tree.placeAll [] [.link ⟨"/p/target"⟩ ⟨"/out"⟩, .file ⟨"/out/kept.pyc"⟩ [1] 0o644,
    .file ⟨"/p/src/__pycache__/a.txt"⟩ [2] 0o644, .link ⟨"/p/src/b.pyo"⟩ ⟨"/out/kept.pyc"⟩,
    .file ⟨"/p/src/.pyc"⟩ [3] 0o600, .dir ⟨"/p/src/c.pyc"⟩] Tree.empty

set_option maxRecDepth 100000 in
theorem run_leaves_exactly_cluttered :
    ∃ report t', (run [] (Config.withRoot ⟨"/p"⟩) false).exec cluttered = (.ok report, t') ∧
      ∀ l, (Transient cluttered ["p"] l → t'.get? l = none) ∧
        (¬ Transient cluttered ["p"] l → t'.get? l = cluttered.get? l) := by
  have hdir : cluttered.get? ["p"] = some .dir := by decide +kernel
  have hroot : (Config.withRoot ⟨"/p"⟩).root = Loc.path ["p"] := by decide +kernel
  have hrun : ((run [] (Config.withRoot ⟨"/p"⟩) false).exec cluttered).1 =
      .ok ⟨[⟨"/p/target"⟩, ⟨"/p/src/__pycache__"⟩, ⟨"/p/src/b.pyo"⟩], 18, false⟩ := by
    decide +kernel
  generalize hafter : (run [] (Config.withRoot ⟨"/p"⟩) false).exec cluttered = after at hrun
  obtain ⟨result, t'⟩ := after
  obtain rfl : result = _ := hrun
  exact ⟨_, t', rfl, (run_leaves_exactly hdir hroot hafter).1⟩

end Zipship.Clean
