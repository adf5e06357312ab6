import Zipship.Proofs.Deflate.Size
import Zipship.Proofs.Package.Entry

/-!
# Filling an archive

An archive takes entries one after another until it refuses one. `Takes` says that it refuses none
of those for what a walk lists; then it is the archive of all of them, and only the walk can have
failed (`fill_of_takes`). That is so if the entries have different names and their sizes have fields
that can hold them (`takes_iff`), and whenever nothing failed (`fill_eq_none`).
-/

namespace Zipship.Package

variable {place : Loc} {source dest : Path} {fault : Option Walk.Fault} {draft : Zip.Draft}
  {visits : List Visit} {v : Visit} {content : Bytes} {p : Path} {reason : String}

/-! ## Entries for what is listed -/

theorem entryOf_eq (hv : v.loc ≠ place) : entryOf draft place v = entryFor v.names v.node := by
  unfold entryOf entryFor
  cases v.node with
  | dir => rfl
  | file _ _ | link _ | device _ => simp [if_neg hv]

/-- The content of an entry does not decide its name. -/
theorem name_entryOf (draft : Zip.Draft) (place : Loc) (v : Visit) :
    (entryOf draft place v).name = (entryFor v.names v.node).name ∧
      ((entryOf draft place v).body = .directory ↔ v.node = .dir) := by
  unfold entryOf entryFor
  cases v.node with
  | dir => simp
  | file _ _ | link _ | device _ =>
    simp only
    split_ifs <;> simp

/-- The archive that goes on from a draft with what a walk lists. -/
def continued (place : Loc) (draft : Zip.Draft) (visits : List Visit) : Zip.Draft :=
  visits.foldl (fun draft v => draft.add (entryOf draft place v)) draft

@[simp] theorem continued_nil : continued place draft [] = draft := rfl

@[simp] theorem continued_cons : continued place draft (v :: visits) =
    continued place (draft.add (entryOf draft place v)) visits := rfl

theorem draftOf_eq_continued : draftOf place visits = continued place .empty visits := rfl

/-- An archive that does not meet itself is the archive of the entries for what it lists. -/
theorem continued_eq_foldl (hself : ∀ v ∈ visits, v.loc ≠ place) :
    continued place draft visits =
      (visits.map fun v => entryFor v.names v.node).foldl Zip.Draft.add draft := by
  induction visits generalizing draft with
  | nil => rfl
  | cons v visits ih =>
    obtain ⟨hv, hvisits⟩ := List.forall_mem_cons.mp hself
    rw [continued_cons, entryOf_eq hv, ih hvisits]
    rfl

theorem draftOf_close (hself : ∀ v ∈ visits, v.loc ≠ place) :
    (draftOf place visits).close = Zip.encode (visits.map fun v => entryFor v.names v.node) := by
  rw [draftOf_eq_continued, continued_eq_foldl hself]
  rfl

/-- Every archive is one of some entries, one for each place that is listed. Only the content of the
archive's own entry can be another one than what was listed. -/
theorem exists_entries (place : Loc) (visits : List Visit) :
    ∃ entries : List Zip.Entry,
      List.Forall₂ (fun v e => e.name = (entryFor v.names v.node).name ∧
        (e.body = .directory ↔ v.node = .dir)) visits entries ∧
      (draftOf place visits).close = Zip.encode entries := by
  have hfold (draft : Zip.Draft) : ∃ entries : List Zip.Entry,
      List.Forall₂ (fun v e => e.name = (entryFor v.names v.node).name ∧
        (e.body = .directory ↔ v.node = .dir)) visits entries ∧
      continued place draft visits = entries.foldl Zip.Draft.add draft := by
    induction visits generalizing draft with
    | nil => exact ⟨[], .nil, rfl⟩
    | cons v visits ih =>
      obtain ⟨entries, hall, heq⟩ := ih (draft.add (entryOf draft place v))
      exact ⟨entryOf draft place v :: entries, .cons (name_entryOf draft place v) hall, heq⟩
  obtain ⟨entries, hall, heq⟩ := hfold .empty
  refine ⟨entries, hall, ?_⟩
  rw [draftOf_eq_continued, heq]
  rfl

/-- An archive has an end record. -/
theorem encode_ne_nil (entries : List Zip.Entry) : Zip.encode entries ≠ [] := by
  intro h
  have hend := (List.append_eq_nil_iff.mp h).2
  unfold Zip.ending at hend
  split_ifs at hend
  · cases hend
  · cases hend

theorem draftOf_close_ne_nil (place : Loc) (visits : List Visit) :
    (draftOf place visits).close ≠ [] := by
  obtain ⟨entries, -, heq⟩ := exists_entries place visits
  rw [heq]
  exact encode_ne_nil entries

/-! ## What is taken -/

/-- Behind a draft, the archive refuses none of the entries for what a walk lists. -/
def TakesFrom (place : Loc) : Zip.Draft → List Visit → Prop
  | _, [] => True
  | draft, v :: rest => isDuplicate draft place v = false ∧ isTooLarge draft place v = false ∧
    isPackedTooLarge draft place v = false ∧
    TakesFrom place (draft.add (entryOf draft place v)) rest

/-- The archive refuses none of the entries for what a walk lists. -/
def Takes (place : Loc) (visits : List Visit) : Prop := TakesFrom place .empty visits

theorem fill_of_takesFrom (h : TakesFrom place draft visits) :
    fill source dest place fault draft visits =
      ((continued place draft visits).close, fault.map (faultError source)) := by
  induction visits generalizing draft with
  | nil => rfl
  | cons v rest ih =>
    obtain ⟨hname, hlarge, hpacked, hrest⟩ := h
    rw [fill, continued_cons]
    simp only [hname, hlarge, hpacked, Bool.false_eq_true, if_false]
    exact ih hrest

/-- **If every entry is taken, the walk alone decides** what comes of an archive. -/
theorem fill_of_takes (h : Takes place visits) :
    fill source dest place fault .empty visits =
      ((draftOf place visits).close, fault.map (faultError source)) :=
  fill_of_takesFrom h

/-- The error of an archive that does not take the entry for `v`, when `rest` is still to come. -/
def IsRefusal (source dest : Path) (fault : Option Walk.Fault) (v : Visit) (rest : List Visit)
    (e : Error) : Prop :=
  e = .archive (source.descend v.names) (.duplicate (entryFor v.names v.node).name) ∨
    e = .io (source.descend v.names) .tooLarge ∨ e = unfinishedError source dest rest fault

/-- An archive that does not take every entry took some and refused the next one. -/
theorem takesFrom_or_refuses (place : Loc) (draft : Zip.Draft) (visits : List Visit) :
    TakesFrom place draft visits ∨ ∃ taken v rest, visits = taken ++ v :: rest ∧
      TakesFrom place draft taken ∧ ¬ TakesFrom place draft (taken ++ [v]) ∧
      ∀ source dest fault, ∃ e, (fill source dest place fault draft visits).2 = some e ∧
        IsRefusal source dest fault v rest e := by
  induction visits generalizing draft with
  | nil => exact Or.inl ⟨⟩
  | cons v rest ih =>
    by_cases hv : TakesFrom place draft [v]
    · obtain ⟨hname, hlarge, hpacked, -⟩ := hv
      refine (ih (draft.add (entryOf draft place v))).imp (fun h => ⟨hname, hlarge, hpacked, h⟩) ?_
      rintro ⟨taken, refused, rest, rfl, htakes, hrefused, hfails⟩
      refine ⟨v :: taken, refused, rest, rfl, ⟨hname, hlarge, hpacked, htakes⟩,
        fun h => hrefused h.2.2.2, fun source dest fault => ?_⟩
      rw [fill]
      simp only [hname, hlarge, hpacked, Bool.false_eq_true, if_false]
      exact hfails source dest fault
    · refine Or.inr ⟨[], v, rest, rfl, ⟨⟩, hv, fun source dest fault => ?_⟩
      rw [fill, (name_entryOf draft place v).1]
      split_ifs with hname hlarge hpacked
      · exact ⟨_, rfl, Or.inl rfl⟩
      · exact ⟨_, rfl, Or.inr (Or.inl rfl)⟩
      · exact ⟨_, rfl, Or.inr (Or.inr rfl)⟩
      · exact absurd ⟨Bool.eq_false_iff.mpr hname, Bool.eq_false_iff.mpr hlarge,
          Bool.eq_false_iff.mpr hpacked, ⟨⟩⟩ hv

/-- What is filled without an error took every entry, of a walk that came to its end. -/
theorem fill_eq_none (h : (fill source dest place fault draft visits).2 = none) :
    TakesFrom place draft visits ∧ fault = none := by
  rcases takesFrom_or_refuses place draft visits with
    htakes | ⟨taken, v, rest, -, -, -, hfails⟩
  · rw [fill_of_takesFrom htakes] at h
    exact ⟨htakes, Option.map_eq_none_iff.mp h⟩
  · obtain ⟨e, he, -⟩ := hfails source dest fault
    rw [h] at he
    cases he

/-- What ends the filling of an archive: a fault of the walk, a refusal, or an entry that is too
large. -/
theorem fill_eq_some {e : Error} (h : (fill source dest place fault draft visits).2 = some e) :
    (∃ found, fault = some found ∧ e = faultError source found) ∨
      (∃ p cause, e = .archive p cause) ∨
      ∃ v ∈ visits, e = .io (source.descend v.names) .tooLarge := by
  rcases takesFrom_or_refuses place draft visits with htakes | ⟨taken, v, rest, rfl, -, -, hfails⟩
  · rw [fill_of_takesFrom htakes] at h
    obtain ⟨found, hfault, rfl⟩ := Option.map_eq_some_iff.mp h
    exact Or.inl ⟨found, hfault, rfl⟩
  · obtain ⟨e', he, hrefusal⟩ := hfails source dest fault
    obtain rfl := Option.some.inj (h.symm.trans he)
    rcases hrefusal with rfl | rfl | rfl
    · exact Or.inr (Or.inl ⟨_, _, rfl⟩)
    · exact Or.inr (Or.inr ⟨v, by simp, rfl⟩)
    · unfold unfinishedError
      split
      · exact Or.inr (Or.inl ⟨_, _, rfl⟩)
      · exact Or.inl ⟨_, rfl, rfl⟩
      · exact Or.inr (Or.inl ⟨_, _, rfl⟩)

theorem TakesFrom.left {rest : List Visit} (h : TakesFrom place draft (visits ++ rest)) :
    TakesFrom place draft visits := by
  induction visits generalizing draft with
  | nil => exact ⟨⟩
  | cons v visits ih => exact ⟨h.1, h.2.1, h.2.2.1, ih h.2.2.2⟩

/-- The entries for what a walk lists have different names, and none of those that are taken. -/
structure Distinct (taken : List String) (visits : List Visit) : Prop where
  new : ∀ v ∈ visits, (entryFor v.names v.node).name ∉ taken
  nodup : (visits.map fun v => (entryFor v.names v.node).name).Nodup

@[simp] theorem distinct_nil {taken : List String} : Distinct taken [] := ⟨by simp, by simp⟩

theorem distinct_cons {taken : List String} {rest : List Visit} :
    Distinct taken (v :: rest) ↔ (entryFor v.names v.node).name ∉ taken ∧
      Distinct (taken ++ [(entryFor v.names v.node).name]) rest := by
  constructor
  · rintro ⟨hnew, hnodup⟩
    obtain ⟨hv, hrest⟩ := List.forall_mem_cons.mp hnew
    obtain ⟨hfresh, hnodup⟩ := List.nodup_cons.mp hnodup
    refine ⟨hv, fun w hw hmem => ?_, hnodup⟩
    rcases List.mem_append.mp hmem with hmem | hmem
    · exact hrest w hw hmem
    · exact hfresh (List.mem_map.mpr ⟨w, hw, List.mem_singleton.mp hmem⟩)
  · rintro ⟨hv, hnew, hnodup⟩
    refine ⟨List.forall_mem_cons.mpr ⟨hv, fun w hw hmem =>
      hnew w hw (List.mem_append_left _ hmem)⟩, List.nodup_cons.mpr ⟨fun hmem => ?_, hnodup⟩⟩
    obtain ⟨w, hw, he⟩ := List.mem_map.mp hmem
    exact hnew w hw (he ▸ List.mem_append_right _ (List.mem_singleton_self _))

/-- The next entry makes its name one of those that are taken. -/
theorem names_add_entryOf (draft : Zip.Draft) (place : Loc) (v : Visit) :
    (draft.add (entryOf draft place v)).names =
      draft.names ++ [(entryFor v.names v.node).name] := by
  rw [← (name_entryOf draft place v).1]
  rfl

theorem isDuplicate_eq_false_iff (place : Loc) : isDuplicate draft place v = false ↔
    (entryFor v.names v.node).name ∉ draft.names := by
  rw [isDuplicate, (name_entryOf draft place v).1, List.contains_eq_mem, decide_eq_false_iff_not]

/-- Entries that are taken have different names. -/
theorem distinct_of_takesFrom (h : TakesFrom place draft visits) :
    Distinct draft.names visits := by
  induction visits generalizing draft with
  | nil => simp
  | cons v rest ih =>
    obtain ⟨hnew, -, -, hrest⟩ := h
    have hothers := ih hrest
    rw [names_add_entryOf] at hothers
    exact distinct_cons.mpr ⟨(isDuplicate_eq_false_iff place).mp hnew, hothers⟩

/-- If the walk is what failed and the last entry can be finished, every entry was taken. That
another one cannot be finished is noticed at the next one. -/
theorem fill_eq_walk (h : (fill source dest place fault draft visits).2 = some (.walk p reason))
    (hlast : ∀ draft, ∀ v ∈ visits.getLast?, isPackedTooLarge draft place v = false) :
    TakesFrom place draft visits := by
  induction visits generalizing draft with
  | nil => exact ⟨⟩
  | cons v rest ih =>
    rw [fill] at h
    split_ifs at h with hname hlarge hpacked
    · cases h
    · cases h
    · cases rest with
      | nil => exact absurd (hlast draft v rfl) (by simp [hpacked])
      | cons next rest => cases h
    · refine ⟨Bool.eq_false_iff.mpr hname, Bool.eq_false_iff.mpr hlarge,
        Bool.eq_false_iff.mpr hpacked, ih h fun draft w hw => hlast draft w ?_⟩
      cases rest with
      | nil => cases hw
      | cons next rest => rwa [List.getLast?_cons_cons]

/-- What stands at the end of a walk can be an entry: it has an end itself, and both its size and
the size that it has when it is packed have fields that can hold them. -/
structure Packable (node : Node) : Prop where
  ends : node ≠ .device .full
  size : node.content.length ≤ Zip.maxSize
  packed : node ≠ .dir → (Deflate.compress node.content).length ≤ Zip.maxSize

/-- Packing makes nothing much longer, so files somewhat below the limit can be packed. -/
theorem Packable.of_length_le {node : Node} (hends : node ≠ .device .full)
    (hsize : node.content.length ≤ 4290000000) : Packable node where
  ends := hends
  size := Nat.le_trans hsize (by decide)
  packed _ := by
    refine Nat.le_trans (Deflate.length_compress_le node.content) ?_
    unfold Deflate.blockTokens Zip.maxSize
    omega

theorem isTooLarge_eq_false_iff (hv : v.loc ≠ place) : isTooLarge draft place v = false ↔
    v.node ≠ .device .full ∧ v.node.content.length ≤ Zip.maxSize := by
  unfold isTooLarge
  rw [entryOf_eq hv, content_entryFor]
  simp

theorem isPackedTooLarge_eq_false_iff (hv : v.loc ≠ place) :
    isPackedTooLarge draft place v = false ↔
      (v.node ≠ .dir → (Deflate.compress v.node.content).length ≤ Zip.maxSize) := by
  unfold isPackedTooLarge
  simp only [entryOf_eq hv, content_entryFor, Bool.and_eq_false_iff, decide_eq_false_iff_not,
    Nat.not_lt]
  have hpacked : (entryFor v.names v.node).body.packed.length ≤ Zip.maxSize ↔
      (v.node ≠ .dir → (Deflate.compress v.node.content).length ≤ Zip.maxSize) := by
    cases v.node <;> simp [entryFor, Zip.Body.packed]
  rw [hpacked, or_iff_right_of_imp]
  intro hsize _
  refine Nat.le_trans (Deflate.length_compress_le v.node.content) ?_
  unfold Deflate.blockTokens Zip.maxSize at *
  omega

/-- An archive that meets itself takes itself too while it is short. -/
theorem taken_of_short (hv : v.loc = place) {mode : Nat} (hnode : v.node = .file content mode)
    (hshort : 2 * (draft.opened ⟨Zip.joinNames (entryNames v.names),
      .file [] v.node.isExecutable⟩).length ≤ Zip.maxSize) :
    isTooLarge draft place v = false ∧ isPackedTooLarge draft place v = false := by
  have hcontent : (entryOf draft place v).body.content = draft.opened
      ⟨Zip.joinNames (entryNames v.names), .file [] v.node.isExecutable⟩ := by
    unfold entryOf
    rw [hnode]
    simp only [hv, if_true]
    rfl
  constructor
  · simp only [isTooLarge, hcontent, hnode, Bool.or_eq_false_iff, decide_eq_false_iff_not]
    rw [hnode] at hshort
    exact ⟨by simp, by omega⟩
  · simp only [isPackedTooLarge, hcontent, Bool.and_eq_false_iff, decide_eq_false_iff_not]
    exact Or.inl (by omega)

/-- Where the file of the archive is does not matter to what it holds, as long as the archive does
not meet itself. An error names the file only if the last entry could not be finished. -/
theorem fill_beside {place' : Loc} {dest' : Path} (hself : ∀ v ∈ visits, v.loc ≠ place)
    (hself' : ∀ v ∈ visits, v.loc ≠ place') :
    (fill source dest' place' fault draft visits).1 =
        (fill source dest place fault draft visits).1 ∧
      ((fill source dest' place' fault draft visits).2 =
          (fill source dest place fault draft visits).2 ∨
        ∃ cause, (fill source dest place fault draft visits).2 = some (.archive dest cause) ∧
          (fill source dest' place' fault draft visits).2 = some (.archive dest' cause)) := by
  induction visits generalizing draft with
  | nil => exact ⟨rfl, Or.inl rfl⟩
  | cons v rest ih =>
    obtain ⟨hv, hrest⟩ := List.forall_mem_cons.mp hself
    obtain ⟨hv', hrest'⟩ := List.forall_mem_cons.mp hself'
    have hentry : entryOf draft place' v = entryOf draft place v := by
      rw [entryOf_eq hv, entryOf_eq hv']
    have hname : isDuplicate draft place' v = isDuplicate draft place v := by
      simp only [isDuplicate, hentry]
    have hlarge : isTooLarge draft place' v = isTooLarge draft place v := by
      simp only [isTooLarge, hentry]
    have hpacked : isPackedTooLarge draft place' v = isPackedTooLarge draft place v := by
      simp only [isPackedTooLarge, hentry]
    rw [fill, fill]
    simp only [hname, hlarge, hpacked, hentry]
    by_cases hstop : isDuplicate draft place v = true ∨ isTooLarge draft place v = true
    · rcases Bool.eq_false_or_eq_true (isDuplicate draft place v) with hdup | hdup
      · simp [hdup]
      · simp [hdup, hstop.resolve_left (by simp [hdup])]
    · rw [not_or, Bool.not_eq_true, Bool.not_eq_true] at hstop
      simp only [hstop.1, hstop.2, Bool.false_eq_true, if_false]
      cases isPackedTooLarge draft place v with
      | false => exact ih hrest hrest'
      | true =>
        refine ⟨rfl, ?_⟩
        cases rest with
        | cons next rest => exact Or.inl rfl
        | nil =>
          cases fault with
          | some fault => exact Or.inl rfl
          | none => exact Or.inr ⟨_, rfl, rfl⟩

/-- An archive that does not meet itself takes entries of different names that can be packed. -/
theorem takesFrom_iff (hself : ∀ v ∈ visits, v.loc ≠ place) : TakesFrom place draft visits ↔
    Distinct draft.names visits ∧ ∀ v ∈ visits, Packable v.node := by
  induction visits generalizing draft with
  | nil => simp [TakesFrom]
  | cons v rest ih =>
    obtain ⟨hv, hrest⟩ := List.forall_mem_cons.mp hself
    rw [TakesFrom, isTooLarge_eq_false_iff hv, isPackedTooLarge_eq_false_iff hv,
      isDuplicate_eq_false_iff, ih hrest, names_add_entryOf, distinct_cons, List.forall_mem_cons]
    constructor
    · rintro ⟨hnew, ⟨hends, hsize⟩, hpacked, hdistinct, hrestable⟩
      exact ⟨⟨hnew, hdistinct⟩, ⟨hends, hsize, hpacked⟩, hrestable⟩
    · rintro ⟨⟨hnew, hdistinct⟩, hpackable, hrestable⟩
      exact ⟨hnew, ⟨hpackable.ends, hpackable.size⟩, hpackable.packed, hdistinct, hrestable⟩

/-- **What an archive takes.** -/
theorem takes_iff (hself : ∀ v ∈ visits, v.loc ≠ place) : Takes place visits ↔
    (visits.map fun v => (entryFor v.names v.node).name).Nodup ∧
      ∀ v ∈ visits, Packable v.node := by
  rw [Takes, takesFrom_iff hself]
  exact and_congr_left' ⟨Distinct.nodup, fun h => ⟨by simp [Zip.Draft.empty], h⟩⟩

/-! ## What becomes too large -/

/-- Something that a walk lists is too large when it is packed, and is not what was listed last when
the walk failed. -/
def Overgrown (fault : Option Walk.Fault) (visits : List Visit) : Prop :=
  ∃ v rest, v :: rest <:+ visits ∧ v.node ≠ .dir ∧
    Zip.maxSize < (Deflate.compress v.node.content).length ∧ (rest ≠ [] ∨ fault = none)

@[simp] theorem not_overgrown_nil : ¬ Overgrown fault [] := by
  rintro ⟨v, rest, hsuffix, -⟩
  cases List.suffix_nil.mp hsuffix

theorem overgrown_cons {rest : List Visit} : Overgrown fault (v :: rest) ↔
    (v.node ≠ .dir ∧ Zip.maxSize < (Deflate.compress v.node.content).length ∧
      (rest ≠ [] ∨ fault = none)) ∨ Overgrown fault rest := by
  constructor
  · rintro ⟨w, behind, hsuffix, hw⟩
    rcases List.suffix_cons_iff.mp hsuffix with heq | hsuffix
    · obtain ⟨rfl, rfl⟩ := List.cons.inj heq
      exact Or.inl hw
    · exact Or.inr ⟨w, behind, hsuffix, hw⟩
  · rintro (hv | ⟨w, behind, hsuffix, hw⟩)
    · exact ⟨v, rest, List.suffix_rfl, hv⟩
    · exact ⟨w, behind, List.suffix_cons_iff.mpr (Or.inr hsuffix), hw⟩

/-- That an entry cannot be finished is noticed when the next one is begun or the archive is closed.
-/
theorem unfinishedError_eq (source dest : Path) {rest : List Visit}
    (h : rest ≠ [] ∨ fault = none) :
    ∃ p, (p = dest ∨ ∃ v ∈ rest, p = source.descend v.names) ∧
      unfinishedError source dest rest fault = .archive p (.io .tooLarge) := by
  cases rest with
  | cons next rest => exact ⟨_, Or.inr ⟨next, by simp, rfl⟩, rfl⟩
  | nil =>
    obtain rfl := h.resolve_left (by simp)
    exact ⟨dest, Or.inl rfl, rfl⟩

/-- What has a size that an entry can hold is refused for its name, or because it is too large when
it is packed; if that is not so, the walk decides. -/
theorem fill_of_sized (source dest : Path) (fault : Option Walk.Fault) (draft : Zip.Draft)
    (hself : ∀ v ∈ visits, v.loc ≠ place)
    (hsized : ∀ v ∈ visits, v.node ≠ .device .full ∧ v.node.content.length ≤ Zip.maxSize) :
    (Distinct draft.names visits ∧ ¬ Overgrown fault visits ∧
        (fill source dest place fault draft visits).2 = fault.map (faultError source)) ∨
      (¬ Distinct draft.names visits ∧ ∃ v ∈ visits,
        (fill source dest place fault draft visits).2 = some (.archive (source.descend v.names)
          (.duplicate (entryFor v.names v.node).name))) ∨
      (Overgrown fault visits ∧ ∃ p, (p = dest ∨ ∃ v ∈ visits, p = source.descend v.names) ∧
        (fill source dest place fault draft visits).2 = some (.archive p (.io .tooLarge))) := by
  induction visits generalizing draft with
  | nil => exact Or.inl ⟨distinct_nil, not_overgrown_nil, rfl⟩
  | cons v rest ih =>
    obtain ⟨hv, hrest⟩ := List.forall_mem_cons.mp hself
    obtain ⟨hsize, hsizes⟩ := List.forall_mem_cons.mp hsized
    have hlarge : isTooLarge draft place v = false := (isTooLarge_eq_false_iff hv).mpr hsize
    rw [fill, distinct_cons, overgrown_cons, ← isDuplicate_eq_false_iff place]
    rcases Bool.eq_false_or_eq_true (isDuplicate draft place v) with hname | hname
    · refine Or.inr (Or.inl ⟨by simp [hname], v, by simp, ?_⟩)
      simp only [hname, if_true, entryOf_eq hv]
    by_cases hpacked : isPackedTooLarge draft place v = false
    · have hfits := (isPackedTooLarge_eq_false_iff hv).mp hpacked
      have hnot : ¬ (v.node ≠ .dir ∧ Zip.maxSize < (Deflate.compress v.node.content).length ∧
          (rest ≠ [] ∨ fault = none)) := fun h => Nat.not_lt.mpr (hfits h.1) h.2.1
      have hgoes := ih (draft.add (entryOf draft place v)) hrest hsizes
      rw [names_add_entryOf] at hgoes
      simp only [hname, hlarge, hpacked, Bool.false_eq_true, if_false, true_and, hnot, false_or]
      rcases hgoes with hwalk | ⟨hdup, w, hw, he⟩ | ⟨hgrown, p, hp, he⟩
      · exact Or.inl hwalk
      · exact Or.inr (Or.inl ⟨hdup, w, List.mem_cons_of_mem v hw, he⟩)
      · exact Or.inr (Or.inr ⟨hgrown, p,
          hp.imp_right fun ⟨w, hw, hp⟩ => ⟨w, List.mem_cons_of_mem v hw, hp⟩, he⟩)
    · have hgrown : v.node ≠ .dir ∧ Zip.maxSize < (Deflate.compress v.node.content).length := by
        rwa [isPackedTooLarge_eq_false_iff hv, Classical.not_imp, Nat.not_le] at hpacked
      simp only [hname, hlarge, hpacked, Bool.false_eq_true, if_false]
      by_cases hnext : rest ≠ [] ∨ fault = none
      · obtain ⟨p, hp, he⟩ := unfinishedError_eq source dest hnext
        exact Or.inr (Or.inr ⟨Or.inl ⟨hgrown.1, hgrown.2, hnext⟩, p,
          hp.imp_right fun ⟨w, hw, hp⟩ => ⟨w, List.mem_cons_of_mem v hw, hp⟩, congrArg some he⟩)
      · obtain ⟨hrest, hfault⟩ := not_or.mp hnext
        obtain rfl : rest = [] := not_not.mp hrest
        obtain ⟨found, rfl⟩ := Option.ne_none_iff_exists'.mp hfault
        exact Or.inl ⟨⟨⟨⟩, distinct_nil⟩, by simp, rfl⟩

end Zipship.Package
