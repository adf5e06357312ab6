import Zipship.Proofs.Package.Archive
import Zipship.Proofs.Tree.Order

/-!
# The order of the entries of an archive

An archive lists its entries by the names that lead to them, compared name by name and each name
byte by byte (`writeArchive_inOrder`). That is not the order of the texts that the entries are
called by: `a/b` precedes `a.py`, since the name `a` begins `a.py`, but as texts they are the other
way round. It is not the order of the components of those texts either, where names are no texts and
are shown as something else (`shown_siblings_decrease`). Still no two entries are called the same,
each entry comes behind the directories above it, and what is in a directory comes right behind it.
-/

namespace Zipship.Package

variable {t t' : Tree} {cwd place : Loc} {source dest exclude : Path} {summary : Summary}
  {entries : List Zip.Entry} {visits : List Visit} {names : List Name}

/-- The names that the name of an entry is made of. -/
def components (e : Zip.Entry) : List Name := Path.pieces ⟨e.name⟩

/-- Some names as they are shown. -/
def shownNames (names : List Name) : List Name := names.map fun n => Bytes.ofString n.shown

/-- How the entries of an archive are ordered, to which `paths` lead. -/
structure InOrder (paths : List (List Name)) (entries : List Zip.Entry) : Prop where
  increasing : paths.Pairwise Tree.Precedes
  /-- The name of an entry is made of what is shown of the names that lead to it. -/
  called : entries.map components = paths.map shownNames
  distinct : (entries.map Zip.Entry.name).Nodup
  /-- The directories above an entry have entries in front of it. -/
  above : ∀ front e behind, entries = front ++ e :: behind → ∀ q, q ≠ [] → q <+: components e →
    q ≠ components e → ∃ d ∈ front, components d = q ∧ d.body = .directory
  /-- What is in a directory comes right behind it. -/
  below : ∀ front d behind, entries = front ++ d :: behind → d.body = .directory →
    ∃ inside rest, behind = inside ++ rest ∧
      (∀ e ∈ inside, components d <+: components e ∧ components d ≠ components e) ∧
      ∀ e ∈ front ++ rest, components d <+: components e → components d = components e
  /-- Where all names are texts, the components of the entries increase. -/
  texts : (∀ path ∈ paths, ∀ n ∈ path, ∃ s : String, n = s) →
    entries.Pairwise fun d e => Tree.Precedes (components d) (components e)

/-! ## Names as they are shown -/

theorem length_shownNames (names : List Name) : (shownNames names).length = names.length :=
  List.length_map _

theorem shownNames_take (k : Nat) : shownNames (names.take k) = (shownNames names).take k :=
  List.map_take

theorem shownNames_eq : shownNames names = (entryNames names).map Bytes.ofString := by
  rw [entryNames, List.map_map]
  rfl

theorem entryNames_inj {names' : List Name} (h : shownNames names = shownNames names') :
    entryNames names = entryNames names' := by
  rw [shownNames_eq, shownNames_eq] at h
  exact List.map_injective_iff.mpr (fun _ _ => Bytes.ofString_inj.mp) h

theorem shownNames_of_texts (h : ∀ n ∈ names, ∃ s : String, n = s) : shownNames names = names :=
  shownNames_eq.trans (ofString_entryNames h)

/-! ## What is listed, with its entries -/

/-- An entry is called by what is listed, and tells whether that is a directory. -/
def Tells (v : Visit) (e : Zip.Entry) : Prop :=
  e.name = (entryFor v.names v.node).name ∧ (e.body = .directory ↔ v.node = .dir)

/-- What a walk lists with the entries for it, in the order of the names, where no two entries are
called the same, and where the directories above what is listed are listed. -/
structure Rows (rows : List (Visit × Zip.Entry)) : Prop where
  tells : ∀ r ∈ rows, Tells r.1 r.2
  named : ∀ r ∈ rows, r.1.names ≠ [] ∧ ∀ n ∈ r.1.names, n.valid = true
  increasing : rows.Pairwise fun r s => Tree.Precedes r.1.names s.1.names
  distinct : (rows.map fun r => r.2.name).Nodup
  above : ∀ r ∈ rows, ∀ q, q ≠ [] → q <+: r.1.names → q ≠ r.1.names →
    ∃ s ∈ rows, s.1.names = q ∧ s.1.node = .dir

namespace Rows

variable {rows front behind : List (Visit × Zip.Entry)} {r s : Visit × Zip.Entry} (h : Rows rows)

include h

theorem components_eq (hr : r ∈ rows) : components r.2 = shownNames r.1.names := by
  rw [components, (h.tells r hr).1, pieces_entryFor (h.named r hr).2, shownNames_eq]

/-- A directory above what is listed is found by what is shown of it. -/
theorem exists_above (hr : r ∈ rows) {q : List Name} (hne : q ≠ []) (hpre : q <+: components r.2)
    (hproper : q ≠ components r.2) :
    ∃ s ∈ rows, s.1.names <+: r.1.names ∧ s.1.names ≠ r.1.names ∧ components s.2 = q ∧
      s.1.node = .dir := by
  rw [h.components_eq hr] at hpre hproper
  have hlen : q.length < r.1.names.length := by
    rw [← length_shownNames r.1.names]
    exact lt_of_le_of_ne hpre.length_le fun he => hproper (hpre.eq_of_length he)
  have hlength : (r.1.names.take q.length).length = q.length := by
    rw [List.length_take, Nat.min_eq_left hlen.le]
  have hshorter : r.1.names.take q.length ≠ r.1.names := fun he => by
    rw [he] at hlength
    omega
  obtain ⟨s, hs, hnames, hdir⟩ := h.above r hr (r.1.names.take q.length)
    (fun he => hne (List.eq_nil_of_length_eq_zero (by rw [← hlength, he]; rfl)))
    (List.take_prefix _ _) hshorter
  refine ⟨s, hs, hnames ▸ List.take_prefix _ _, hnames ▸ hshorter, ?_, hdir⟩
  rw [h.components_eq hs, hnames, shownNames_take]
  exact (List.prefix_iff_eq_take.mp hpre).symm

/-- What is shown below a directory is below it: another directory that is shown the same would have
an entry of the same name. -/
theorem isBelow_iff (hr : r ∈ rows) (hs : s ∈ rows) (hdir : r.1.node = .dir) :
    components r.2 <+: components s.2 ∧ components r.2 ≠ components s.2 ↔
      r.1.names <+: s.1.names ∧ r.1.names ≠ s.1.names := by
  constructor
  · rintro ⟨hpre, hproper⟩
    have hne : components r.2 ≠ [] := by
      rw [h.components_eq hr]
      exact fun he => (h.named r hr).1 (List.map_eq_nil_iff.mp he)
    obtain ⟨d, hd, hnames, hother, hcomponents, hnode⟩ := h.exists_above hs hne hpre hproper
    rw [h.components_eq hd, h.components_eq hr] at hcomponents
    have hname : d.2.name = r.2.name := by
      rw [(h.tells d hd).1, (h.tells r hr).1, hnode, hdir]
      exact congrArg Zip.directoryName (entryNames_inj hcomponents)
    rw [← List.inj_on_of_nodup_map h.distinct hd hr hname]
    exact ⟨hnames, hother⟩
  · rintro ⟨hpre, hproper⟩
    rw [h.components_eq hr, h.components_eq hs]
    refine ⟨hpre.map _, fun he => hproper (hpre.eq_of_length ?_)⟩
    rw [← length_shownNames, he, length_shownNames]

omit h in
theorem mem_front (h : (front ++ r :: behind).Pairwise fun r s =>
    Tree.Precedes r.1.names s.1.names) (hs : s ∈ front ++ r :: behind)
    (hbefore : Tree.Precedes s.1.names r.1.names) : s ∈ front := by
  obtain ⟨-, hbehind, -⟩ := List.pairwise_append.mp h
  rcases List.mem_append.mp hs with hs | hs
  · exact hs
  · rcases List.mem_cons.mp hs with rfl | hs
    · exact absurd hbefore (Tree.Precedes.irrefl _)
    · exact absurd hbefore (Tree.Precedes.asymm ((List.pairwise_cons.mp hbehind).1 s hs))

omit h in
/-- Of what comes behind some names, what begins with them comes first. -/
theorem exists_inside (hr : ∀ s ∈ behind, Tree.Precedes names s.1.names)
    (h : behind.Pairwise fun r s => Tree.Precedes r.1.names s.1.names) :
    ∃ inside rest, behind = inside ++ rest ∧ (∀ s ∈ inside, names <+: s.1.names) ∧
      ∀ s ∈ rest, ¬ names <+: s.1.names := by
  induction behind with
  | nil => exact ⟨[], [], rfl, by simp, by simp⟩
  | cons s behind ih =>
    obtain ⟨hs, hrest⟩ := List.pairwise_cons.mp h
    obtain ⟨hrs, hbehind⟩ := List.forall_mem_cons.mp hr
    by_cases hin : names <+: s.1.names
    · obtain ⟨inside, rest, rfl, hinside, hout⟩ := ih hbehind hrest
      exact ⟨s :: inside, rest, rfl, List.forall_mem_cons.mpr ⟨hin, hinside⟩, hout⟩
    · -- what comes behind the first entry that is not inside cannot be inside either
      refine ⟨[], s :: behind, rfl, by simp, List.forall_mem_cons.mpr ⟨hin, fun x hx hpre => ?_⟩⟩
      exact hin (Tree.Precedes.isPrefix_of_between hrs (hs x hx) hpre)

/-- The entries for what is listed are in order. -/
theorem inOrder : InOrder (rows.map fun r => r.1.names) (rows.map Prod.snd) where
  increasing := List.pairwise_map.mpr h.increasing
  called := by
    rw [List.map_map, List.map_map]
    exact List.map_congr_left fun r hr => h.components_eq hr
  distinct := by
    rw [List.map_map]
    exact h.distinct
  above := by
    intro front e behind hentries q hne hpre hproper
    obtain ⟨frontRows, rest, rfl, rfl, hrest⟩ := List.map_eq_append_iff.mp hentries
    obtain ⟨r, behindRows, rfl, rfl, -⟩ := List.map_eq_cons_iff.mp hrest
    obtain ⟨s, hs, hnames, hother, hcomponents, hdir⟩ :=
      h.exists_above (r := r) (by simp) hne hpre hproper
    exact ⟨s.2, List.mem_map_of_mem (mem_front h.increasing hs
      (Tree.precedes_of_isPrefix hnames hother)), hcomponents, (h.tells s hs).2.mpr hdir⟩
  below := by
    intro front d behind hentries hbody
    obtain ⟨frontRows, rest, rfl, rfl, hrest⟩ := List.map_eq_append_iff.mp hentries
    obtain ⟨r, behindRows, rfl, rfl, rfl⟩ := List.map_eq_cons_iff.mp hrest
    have hr : r ∈ frontRows ++ r :: behindRows := by simp
    have hdir := (h.tells r hr).2.mp hbody
    obtain ⟨-, hbehind, hfront⟩ := List.pairwise_append.mp h.increasing
    obtain ⟨hfirst, hlater⟩ := List.pairwise_cons.mp hbehind
    obtain ⟨inside, rest, rfl, hinside, hout⟩ := exists_inside hfirst hlater
    refine ⟨inside.map Prod.snd, rest.map Prod.snd, List.map_append, ?_, ?_⟩
    · refine List.forall_mem_map.mpr fun s hs => ?_
      have hmem : s ∈ inside ++ rest := List.mem_append_left _ hs
      exact (h.isBelow_iff hr (by simp [hs]) hdir).mpr ⟨hinside s hs, (hfirst s hmem).ne⟩
    · rw [← List.map_append]
      refine List.forall_mem_map.mpr fun s hs hpre => ?_
      by_contra hne
      rcases List.mem_append.mp hs with hs | hs
      · obtain ⟨hbelow, -⟩ := (h.isBelow_iff hr (by simp [hs]) hdir).mp ⟨hpre, hne⟩
        exact Tree.not_precedes_of_isPrefix hbelow (hfront s hs r List.mem_cons_self)
      · exact hout s hs ((h.isBelow_iff hr (by simp [hs]) hdir).mp ⟨hpre, hne⟩).1
  texts := by
    intro htexts
    have hshown : ∀ r ∈ rows, components r.2 = r.1.names := fun r hr => by
      rw [h.components_eq hr, shownNames_of_texts (htexts _ (List.mem_map_of_mem hr))]
    refine List.pairwise_map.mpr (h.increasing.imp_of_mem fun {r s} hr hs hlt => ?_)
    rwa [hshown r hr, hshown s hs]

end Rows

/-! ## The entries of what a walk lists -/

/-- The directories above what is kept are kept. -/
theorem Kept.above {loc : Loc} {names q : List Name} {node : Node}
    (h : Kept t cwd source dest exclude names loc node) (hne : q ≠ []) (hq : q <+: names)
    (hproper : q ≠ names) : ∃ l, Kept t cwd source dest exclude q l .dir := by
  obtain ⟨l, hl⟩ := h.leads.dir_of_isPrefix hq hproper h.valid
  exact ⟨l, hne, fun n hn => h.valid n (hq.subset hn), hl,
    fun p l m hp => h.free p l m (hp.trans hq)⟩

theorem map_name_eq (h : List.Forall₂ Tells visits entries) : entries.map Zip.Entry.name =
    visits.map fun v => (entryFor v.names v.node).name := by
  induction h with
  | nil => rfl
  | cons hve _ ih => rw [List.map_cons, List.map_cons, hve.1, ih]

/-- What a walk lists with the entries for it, if it comes to its end and they are called
differently. -/
theorem rows_of_walk (hok : (archiveWalk t cwd source dest exclude).fault = none)
    (h : List.Forall₂ Tells (archiveWalk t cwd source dest exclude).visits entries)
    (hnodup : (entries.map Zip.Entry.name).Nodup) :
    Rows ((archiveWalk t cwd source dest exclude).visits.zip entries) := by
  have hvisits := List.map_fst_zip h.length_eq.le
  have hentries := List.map_snd_zip h.length_eq.ge
  have hlisted {r : Visit × Zip.Entry}
      (hr : r ∈ (archiveWalk t cwd source dest exclude).visits.zip entries) :=
    (mem_archiveWalk hok).mp (List.of_mem_zip hr).1
  refine ⟨fun r hr => List.forall₂_zip h hr, fun r hr => ⟨(hlisted hr).ne_nil, (hlisted hr).valid⟩,
    ?_, ?_, fun r hr q hne hpre hproper => ?_⟩
  · have hpairwise := archiveWalk_pairwise t cwd source dest exclude
    rw [← hvisits, List.pairwise_map] at hpairwise
    exact hpairwise
  · rwa [← hentries, List.map_map] at hnodup
  · obtain ⟨l, hkept⟩ := (hlisted hr).above hne hpre hproper
    have hmem := (mem_archiveWalk (v := ⟨q, l, .dir⟩) hok).mpr hkept
    rw [← hvisits, List.mem_map] at hmem
    obtain ⟨s, hs, heq⟩ := hmem
    exact ⟨s, hs, by rw [heq], by rw [heq]⟩

/-- **The entries of an archive are in order**, whatever the order of the tree's own entries, which
is that of the listings of its directories. -/
theorem writeArchive_inOrder
    (h : (writeArchive cwd source dest exclude).exec t = (.ok summary, t')) :
    ∃ place opened entries, Tree.create cwd dest t = .ok (place, opened) ∧
      Tree.write place (Zip.encode entries) opened = .ok (⟨⟩, t') ∧
      ((∃ mode, t'.get? place = some (.file (Zip.encode entries) mode)) ∨
        t'.get? place = some (.device .null)) ∧
      summary.entries = entries.length ∧
      InOrder ((archiveWalk opened cwd source dest exclude).visits.map Visit.names) entries := by
  obtain ⟨place, opened, hcreate, hok, htakes, rfl, hwrite⟩ := writeArchive_ok h
  obtain ⟨entries, hall, hclose⟩ :=
    exists_entries place (archiveWalk opened cwd source dest exclude).visits
  rw [hclose] at hwrite
  obtain ⟨-, hfile⟩ := Tree.create_write_ok hcreate (encode_ne_nil _) hwrite
  have hnodup := (distinct_of_takesFrom htakes).nodup
  rw [← map_name_eq hall] at hnodup
  have hpaths : ((archiveWalk opened cwd source dest exclude).visits.zip entries).map
      (fun r => r.1.names) =
      (archiveWalk opened cwd source dest exclude).visits.map Visit.names := by
    conv_rhs => rw [← List.map_fst_zip hall.length_eq.le, List.map_map]
    rfl
  have horder := (rows_of_walk hok hall hnodup).inOrder
  rw [List.map_snd_zip hall.length_eq.ge, hpaths] at horder
  exact ⟨place, opened, entries, hcreate, hwrite, hfile, hall.length_eq, horder⟩

/-- Sources whose listing shows a module in front of the directory that its name begins with. -/
def siblings : Tree :=
  Tree.placeAll [] [.file ⟨"/s/a.py"⟩ [1] 0o644, .file ⟨"/s/a/b"⟩ [2] 0o644] Tree.empty

set_option maxRecDepth 100000 in
theorem writeArchive_inOrder_siblings :
    ∃ summary t' place opened entries,
      (writeArchive [] ⟨"/s"⟩ ⟨"/o.zip"⟩ ⟨"/none"⟩).exec siblings = (.ok summary, t') ∧
      Tree.create [] ⟨"/o.zip"⟩ siblings = .ok (place, opened) ∧
      Tree.write place (Zip.encode entries) opened = .ok (⟨⟩, t') ∧
      entries.map components = ([["a"], ["a", "b"], ["a.py"]] : List (List Name)) ∧
      InOrder [["a"], ["a", "b"], ["a.py"]] entries := by
  have hrun : ((writeArchive [] ⟨"/s"⟩ ⟨"/o.zip"⟩ ⟨"/none"⟩).exec siblings).1 = .ok ⟨3, false⟩ := by
    decide +kernel
  have hwalk : (Tree.create [] ⟨"/o.zip"⟩ siblings).map (fun created =>
      (archiveWalk created.2 [] ⟨"/s"⟩ ⟨"/o.zip"⟩ ⟨"/none"⟩).visits.map Visit.names) =
      .ok [["a"], ["a", "b"], ["a.py"]] := by
    decide +kernel
  generalize hafter : (writeArchive [] ⟨"/s"⟩ ⟨"/o.zip"⟩ ⟨"/none"⟩).exec siblings = after at hrun
  obtain ⟨result, t'⟩ := after
  obtain rfl : result = _ := hrun
  obtain ⟨place, opened, entries, hcreate, hwrite, -, -, horder⟩ := writeArchive_inOrder hafter
  rw [hcreate] at hwalk
  have hpaths : List.map _ _ = ([["a"], ["a", "b"], ["a.py"]] : List (List Name)) :=
    Except.ok.inj hwalk
  rw [hpaths] at horder
  exact ⟨_, t', place, opened, entries, rfl, hcreate, hwrite,
    horder.called.trans (by decide +kernel), horder⟩

/-- Sources with two modules, of which the name of the first one is no text. -/
def shownSiblings : Tree :=
  Tree.placeAll [] [.file (.child ⟨"/s"⟩ (0x80 :: ".py")) [] 0o644, .file ⟨"/s/é.py"⟩ [] 0o644]
    Tree.empty

set_option maxRecDepth 100000 in
/-- The names of entries need not increase: what is shown of a name that is no text can come behind
a text that the name itself precedes. -/
theorem shown_siblings_decrease :
    ∃ summary t' entries,
      (writeArchive [] ⟨"/s"⟩ ⟨"/o.zip"⟩ ⟨"/none"⟩).exec shownSiblings = (.ok summary, t') ∧
      t'.get? ["o.zip"] = some (.file (Zip.encode entries) 0o644) ∧
      entries.map Zip.Entry.name = ["\uFFFD.py", "é.py"] ∧
      ¬ entries.Pairwise fun d e => Tree.Precedes (components d) (components e) := by
  let visits : List Visit :=
    [⟨[0x80 :: ".py"], ["s", 0x80 :: ".py"], .file [] 0o644⟩,
      ⟨["é.py"], ["s", "é.py"], .file [] 0o644⟩]
  have hopened : (Tree.create [] ⟨"/o.zip"⟩ shownSiblings).map (fun created => (created.1,
      created.2.get? created.1, archiveWalk created.2 [] ⟨"/s"⟩ ⟨"/o.zip"⟩ ⟨"/none"⟩)) =
      .ok (["o.zip"], some (.file [] 0o644), ⟨visits, none⟩) := by
    decide +kernel
  obtain ⟨opened, t', -, -, hrun, hzip⟩ := writeArchive_of_small hopened (by decide +kernel)
    (by decide +kernel) (by decide +kernel)
  exact ⟨_, t', _, hrun, hzip, by decide +kernel, by decide +kernel⟩

end Zipship.Package
