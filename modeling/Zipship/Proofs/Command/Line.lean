import Zipship.Command.Line
import Zipship.Proofs.Tree.Lookup

/-!
# What a command line asks for

Only the command that cleans can be made a dry run (`dryRun_of_parse`): the option is refused in any
other place, and a command that was read is not replaced. So each argument keeps a draft `Sound`.
-/

namespace Zipship.CommandLine

variable {d d' : Draft} {l : CommandLine} {arg word option : String} {attached : Option String}
  {args rest rest' testArgs : List String} {o : CommonOptions} {fuel : Nat}

/-- A draft of a dry run has the command that cleans. -/
def Draft.Sound (d : Draft) : Prop := d.dryRun = true → d.command = some (.perform .clean)

theorem Draft.Sound.withOptions (h : d.Sound) : (d.withOptions o).Sound := by
  unfold Draft.withOptions
  split_ifs
  · exact h
  · exact h

theorem sound_readValue (h : d.Sound)
    (hr : readValue d option attached rest = .ok (d', rest')) : d'.Sound := by
  unfold readValue at hr
  split at hr
  · obtain ⟨o, -, hr⟩ := bind_eq_ok.mp hr
    cases hr
    exact h.withOptions
  · split_ifs at hr
    obtain ⟨o, -, hr⟩ := bind_eq_ok.mp hr
    cases hr
    exact h.withOptions
  · cases hr

theorem sound_readVerbose (h : d.Sound) (hr : readVerbose d = .ok d') : d'.Sound := by
  unfold readVerbose at hr
  split_ifs at hr
  cases hr
  exact h.withOptions

theorem sound_readLong (h : d.Sound)
    (hr : readLong d option attached rest = .ok (d', rest')) : d'.Sound := by
  unfold readLong at hr
  by_cases hvalued : valued.contains option = true
  · rw [if_pos hvalued] at hr
    exact sound_readValue h hr
  rw [if_neg hvalued] at hr
  by_cases hattached : attached.isSome = true
  · rw [if_pos hattached] at hr
    cases hr
  rw [if_neg hattached] at hr
  split at hr
  · obtain ⟨verbose, hverbose, hr⟩ := bind_eq_ok.mp hr
    cases hr
    exact sound_readVerbose h hverbose
  · cases hr
  · cases hr
  · split_ifs at hr with hclean
    cases hr
    exact fun _ => hclean.1
  · cases hr

theorem sound_readShort {letters : List Char} (h : d.Sound)
    (hr : readShort rest letters d = .ok (d', rest')) : d'.Sound := by
  induction letters generalizing d with
  | nil =>
    cases hr
    exact h
  | cons letter letters ih =>
    unfold readShort at hr
    split at hr
    · cases hr
      exact h
    · rename_i heq
      cases heq
      obtain ⟨verbose, hverbose, hr⟩ := bind_eq_ok.mp hr
      exact ih (sound_readVerbose h hverbose) hr
    · exact sound_readValue h hr
    · exact sound_readValue h hr
    · cases hr
    · cases hr
    · cases hr

theorem sound_readWord (h : d.Sound) (hr : readWord d word rest = .ok (d', rest')) :
    d'.Sound := by
  unfold readWord at hr
  split at hr
  · rename_i hnone
    -- no command was read, so this is no dry run yet
    have hdry : d.dryRun ≠ true := by
      intro hdry
      have hclean := h hdry
      rw [hnone] at hclean
      cases hclean
    split at hr
    · cases hr
      exact fun hdry' => absurd hdry' hdry
    · split_ifs at hr
  · split at hr
    · cases hr
      exact h
    · cases hr
  · cases hr

/-- Reading an argument keeps a draft sound. -/
theorem sound_readArg (h : d.Sound) (hr : readArg d arg rest = .ok (d', rest')) : d'.Sound := by
  unfold readArg at hr
  split at hr
  · exact sound_readLong h hr
  · exact sound_readShort h hr
  · exact sound_readWord h hr

theorem finish_ok (h : finish d testArgs = .ok l) :
    d.command = some l.command ∧ l.dryRun = d.dryRun := by
  unfold finish at h
  split at h
  · cases h
  · rename_i command hcommand
    split_ifs at h
    cases h
    exact ⟨hcommand, rfl⟩

/-- The line that is read from a sound draft is a dry run only if it cleans. -/
theorem sound_readAll (h : d.Sound) (hr : readAll fuel d args = .ok l) (hdry : l.dryRun = true) :
    l.command = .perform .clean := by
  have hfinish {d : Draft} {testArgs : List String} (h : d.Sound)
      (hend : finish d testArgs = .ok l) : l.command = .perform .clean := by
    obtain ⟨hcommand, hsame⟩ := finish_ok hend
    have hclean := h (hsame ▸ hdry)
    rw [hcommand] at hclean
    exact Option.some.inj hclean
  induction fuel generalizing d args with
  | zero => exact hfinish h hr
  | succ fuel ih =>
    cases args with
    | nil => exact hfinish h hr
    | cons arg rest =>
      unfold readAll at hr
      split_ifs at hr
      · exact hfinish h hr
      · obtain ⟨⟨d', rest'⟩, harg, hr⟩ := bind_eq_ok.mp hr
        exact ih (sound_readArg h harg) hr

/-- **Only the command that cleans can be a dry run.** -/
theorem dryRun_of_parse (h : parse args = .ok l) (hdry : l.dryRun = true) :
    l.command = .perform .clean :=
  sound_readAll (fun hnone => by cases hnone) h hdry

end Zipship.CommandLine
