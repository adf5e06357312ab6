import Zipship.Config.Validity
import Zipship.Proofs.Testing.Launch
import Zipship.Proofs.Text.Encoding
import Zipship.Proofs.Tree.Joined

/-!
# The places that a runner is told

A runner is told two places, as they are spelled in the configuration: where modules are searched,
and which file configures the measurement of coverage. It works in the directory of the project, so
from there they are the places that the library itself takes (`launchOf_places`). But what lists the
places for modules is cut at colons, and nothing keeps a colon out of the name of the source
directory (`launchOf_places_colon`).
-/

namespace Zipship

/-- The byte between the places in a list of places. -/
def colon : UInt8 := 0x3a

/-- The places in a list of places: its parts between colons. -/
def searchPlaces (value : Bytes) : List Path := (value.splitOn colon).map Path.mk

theorem searchPlaces_of_no_colon {p : Path} (h : colon ∉ p.bytes) :
    searchPlaces p.bytes = [p] := by
  unfold searchPlaces
  rw [List.splitOn_eq_singleton h]
  simp

/-- A colon lies between two places. -/
theorem two_le_length_searchPlaces {value : Bytes} (h : colon ∈ value) :
    2 ≤ (searchPlaces value).length := by
  obtain ⟨before, behind, hvalue⟩ := List.append_of_mem h
  have hbefore := List.length_pos_of_ne_nil (List.splitOn_ne_nil colon before)
  have hbehind := List.length_pos_of_ne_nil (List.splitOn_ne_nil colon behind)
  unfold searchPlaces
  rw [List.length_map, hvalue, List.splitOn_append_cons_self, List.length_append]
  omega

theorem no_colon_of_searchPlaces {value : Bytes} (h : (searchPlaces value).length = 1) :
    colon ∉ value := by
  intro hcolon
  have hmany := two_le_length_searchPlaces hcolon
  omega

theorem Config.Valid.src_ne_empty {c : Config} (h : c.Valid) : c.src.bytes ≠ [] := by
  unfold Valid fault? at h
  split_ifs at h
  simp_all

namespace Testing

/-- **What a runner is told is what the library uses.** It searches modules in one place, the source
directory, exactly if there is no colon in the path of that. From where the runner works, the place
and the file for the measurement of coverage, of which the path is a text whenever it was read from
a file, are looked up as the library looks them up. -/
theorem launchOf_places {c : Config} (hvalid : c.Valid) (host : Host) (coverage : Bool)
    (extra : List String) :
    let l := launchOf host c coverage extra
    (∃ value, l.env.get? "PYTHONPATH" = some value ∧
      ((searchPlaces value).map l.cwd.join = [c.sourceDir] ↔ colon ∉ c.src.bytes) ∧
      ∀ place, searchPlaces value = [place] →
        ∀ (t : Tree) (here : Tree.Position), t.resolve host.cwd l.cwd = .ok here →
          t.SameLookup host.cwd c.sourceDir here.loc place) ∧
    (coverage = true → ∀ file : String, c.test.coverageConfig = ⟨file⟩ →
      "--cov-config=" ++ file ∈ l.args ∧ l.cwd.join ⟨file⟩ = c.coverageConfigPath ∧
      ∀ (t : Tree) (here : Tree.Position), t.resolve host.cwd l.cwd = .ok here →
        t.isFile host.cwd c.coverageConfigPath = true →
        ∃ pos found, t.resolve host.cwd c.coverageConfigPath = .ok pos ∧
          t.resolve here.loc ⟨file⟩ = .ok found ∧ found.loc = pos.loc) := by
  have hrunner := launchOf_isRunner host c coverage extra
  refine ⟨⟨c.src.bytes, by rw [hrunner.env]; rfl, ⟨fun hone => ?_, fun hcolon => ?_⟩, ?_⟩, ?_⟩
  · have hlength := congrArg List.length hone
    rw [List.length_map] at hlength
    exact no_colon_of_searchPlaces hlength
  · rw [searchPlaces_of_no_colon hcolon]
    rfl
  · intro place hplace t here hhere
    have hcolon : colon ∉ c.src.bytes := no_colon_of_searchPlaces (by rw [hplace]; rfl)
    obtain rfl : c.src = place :=
      List.head_eq_of_cons_eq ((searchPlaces_of_no_colon hcolon).symm.trans hplace)
    exact Tree.sameLookup_join hhere hvalid.src_ne_empty
  · intro hcoverage file hconfig
    refine ⟨?_, ?_, ?_⟩
    · rw [hrunner.args, if_pos hcoverage, hconfig]
      simp [Path.shown]
    · rw [← hconfig]
      rfl
    · intro t here hhere hfile
      obtain ⟨pos, -, -, hpos, -⟩ := Tree.isFile_iff.mp hfile
      rw [← hconfig]
      have hsame : t.SameLookup host.cwd c.coverageConfigPath here.loc c.test.coverageConfig :=
        Tree.sameLookup_join hhere (Tree.bytes_ne_of_isFile_join hfile)
      obtain ⟨found, hfound, hloc⟩ := hsame.of_resolve hpos
      exact ⟨pos, found, hpos, hfound, hloc⟩

/-- A project that is reached through a link, with its modules beside it. -/
def linkedConfig : Config :=
  { Config.withRoot ⟨"work"⟩ with src := ⟨"../lib"⟩ }

/-- The tree around that project. -/
def linked : Tree :=
  Tree.placeAll [] [.dir ⟨"/srv/p"⟩, .dir ⟨"/srv/lib"⟩, .file ⟨"/srv/p/.coveragerc"⟩ [] 0o644,
    .link ⟨"/work"⟩ ⟨"srv/p"⟩] Tree.empty

/-- From behind the link, what goes back leads to the same place. -/
theorem launchOf_places_linked : linkedConfig.Valid ∧
    (∃ place, searchPlaces "../lib" = [place] ∧
      linked.SameLookup [] ⟨"work/../lib"⟩ ["srv", "p"] place) ∧
    linked.isDir [] ⟨"work/../lib"⟩ = true ∧
    "--cov-config=.coveragerc" ∈ (launchOf quietHost linkedConfig true []).args ∧
    ∃ pos found, linked.resolve [] ⟨"work/.coveragerc"⟩ = .ok pos ∧
      linked.resolve ["srv", "p"] ⟨".coveragerc"⟩ = .ok found ∧ found.loc = pos.loc := by
  have hvalid : linkedConfig.Valid := by decide +kernel
  have hhere : linked.resolve [] ⟨"work"⟩ = .ok ⟨["srv", "p"], 39⟩ := by decide +kernel
  have hfile : linked.isFile [] ⟨"work/.coveragerc"⟩ = true := by decide +kernel
  have hplaces : searchPlaces "../lib" = [⟨"../lib"⟩] := by decide +kernel
  obtain ⟨⟨value, henv, -, hsame⟩, hcoverage⟩ := launchOf_places hvalid quietHost true []
  obtain rfl : ("../lib" : Bytes) = value := by
    rw [(launchOf_isRunner quietHost linkedConfig true []).env] at henv
    exact Option.some.inj henv
  obtain ⟨harg, -, hfound⟩ := hcoverage rfl ".coveragerc" rfl
  exact ⟨hvalid, ⟨_, hplaces, hsame _ hplaces linked _ hhere⟩, by decide +kernel, harg,
    hfound linked _ hhere hfile⟩

/-- A source directory with a colon in its name. -/
def colonConfig : Config := { Config.withRoot ⟨"/p"⟩ with src := ⟨"a:b"⟩ }

/-- The tree of that project. -/
def colonTree : Tree := Tree.placeAll [] [.file ⟨"/p/a:b/m.py"⟩ [] 0o644] Tree.empty

/-- The colon cuts the name in two, and neither place is there. -/
theorem launchOf_places_colon : colonConfig.Valid ∧
    (launchOf quietHost colonConfig false []).env.get? "PYTHONPATH" = some ("a:b" : Bytes) ∧
    (searchPlaces "a:b").map (Path.join ⟨"/p"⟩) = [⟨"/p/a"⟩, ⟨"/p/b"⟩] ∧
    colonConfig.sourceDir = ⟨"/p/a:b"⟩ ∧ colonTree.isDir [] ⟨"/p/a:b"⟩ = true ∧
    colonTree.exists? [] ⟨"/p/a"⟩ = false ∧ colonTree.exists? [] ⟨"/p/b"⟩ = false := by
  refine ⟨?_, ?_, ?_, ?_, ?_, ?_, ?_⟩ <;> decide +kernel

end Testing

end Zipship
