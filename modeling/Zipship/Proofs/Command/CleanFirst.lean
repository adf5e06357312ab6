import Zipship.Proofs.Command.ExitCode
import Zipship.Proofs.Command.Line
import Zipship.Proofs.Run.Attempt
import Zipship.Proofs.Task.Standard

/-!
# Cleaning comes first

Whatever a command line asks for, cleaning is the first thing that is done, and it is done once
(`run_cleans_first`): so nothing that a run makes is removed by a later cleaning of the same run. A
line that asks for tasks names at least one (`requests_ne_nil`), so its plan has the closed form of
plans in which something is requested, and a run goes through its plan from the front.
-/

namespace Zipship

namespace CommandLine

variable {d : Draft} {l : CommandLine} {args testArgs : List String} {fuel : Nat}

/-- A line that is read is that of some draft. -/
theorem exists_finish (h : readAll fuel d args = .ok l) :
    ∃ d' testArgs, finish d' testArgs = .ok l := by
  induction fuel generalizing d args with
  | zero => exact ⟨d, [], h⟩
  | succ fuel ih =>
    cases args with
    | nil => exact ⟨d, [], h⟩
    | cons arg rest =>
      rw [readAll] at h
      split_ifs at h
      · exact ⟨d, rest, h⟩
      · obtain ⟨⟨d', rest'⟩, -, h⟩ := bind_eq_ok.mp h
        exact ih h

/-- A line for several tasks names one at least. -/
theorem named_ne_nil (h : finish d testArgs = .ok l) (hrun : l.command = .run) : l.named ≠ [] := by
  unfold finish at h
  split at h
  · cases h
  · split_ifs at h with hrefused
    cases h
    exact fun hnamed => hrefused (Or.inr ⟨hrun, hnamed⟩)

/-- A line that asks for tasks asks for one at least. -/
theorem requests_ne_nil (h : parse args = .ok l) (htasks : l.command ≠ .tasks) :
    l.requests ≠ [] := by
  obtain ⟨d, testArgs, hfinish⟩ := exists_finish h
  unfold requests
  cases hcommand : l.command with
  | perform task => exact List.cons_ne_nil task []
  | run => exact named_ne_nil hfinish hcommand
  | tasks => exact absurd hcommand htasks

end CommandLine

namespace Command

variable {host : Host} {elapsed : Display.Duration} {args : List String} {t : Tree}
  {l : CommandLine} {c : Config}

/-- A command line that asks for tasks and finds its configuration starts with cleaning. -/
theorem started_of_load (hparse : CommandLine.parse args = .ok l) (htasks : l.command ≠ .tasks)
    (hload : Config.load t host.cwd host.env l.directory l.overrides = .ok c) :
    ∃ later, (run host elapsed args t).machine.started = .clean :: later ∧
      later <+: (l.requests.filter (· ≠ .clean)).eraseDups := by
  have hplan := Graph.plan_standard_eq (CommandLine.requests_ne_nil hparse htasks)
  have hmachine : (run host elapsed args t).machine =
      (executePlan host c l.runOptions (Graph.cleanFirst l.requests) ⟨t, []⟩).2 := by
    rw [run_eq_perform hparse htasks hload hplan]
    rfl
  obtain ⟨hfront, hhead⟩ := attempts_isPrefix (Task.perform host c l.runOptions)
    (Graph.cleanFirst l.requests) ⟨t, []⟩
  rw [hmachine, started_executePlan]
  show ∃ later, [] ++ _ = _ ∧ _
  rw [List.nil_append]
  cases hattempts : attempts (Task.perform host c l.runOptions) (Graph.cleanFirst l.requests)
      ⟨t, []⟩ with
  | nil =>
    rw [hattempts] at hhead
    cases hhead
  | cons first later =>
    rw [hattempts] at hfront
    obtain ⟨hfirst, hlater⟩ := List.cons_prefix_cons.mp hfront
    exact ⟨later.map Attempt.task, by rw [List.map_cons, hfirst], hlater⟩

/-- A command line that does not come to that starts nothing. -/
theorem started_of_not_load (h : ∀ l c, CommandLine.parse args = .ok l → l.command ≠ .tasks →
    Config.load t host.cwd host.env l.directory l.overrides ≠ .ok c) :
    (run host elapsed args t).machine.started = [] := by
  unfold run
  cases hparse : CommandLine.parse args with
  | error refusal => cases refusal <;> rfl
  | ok l =>
    show (carryOut host elapsed l t).machine.started = []
    unfold carryOut
    split_ifs with htasks
    · rfl
    · cases hload : Config.load t host.cwd host.env l.directory l.overrides with
      | error e => rfl
      | ok c => exact absurd hload (h l c hparse htasks)

/-- **Cleaning comes first, and once.** What is requested of a project is planned behind cleaning:
the other tasks in order of first request, each once. So a run either starts nothing, or it starts
with cleaning and goes on along that plan, in which cleaning does not come again. It starts
something exactly if the command line asks for tasks and the configuration can be loaded. -/
theorem run_cleans_first :
    (∀ requests, requests ≠ [] → Graph.standard.plan requests =
      .ok (.clean :: (requests.filter (· ≠ .clean)).eraseDups)) ∧
    ∀ host elapsed args t,
      ((run host elapsed args t).machine.started = [] ↔
        ∀ l c, CommandLine.parse args = .ok l → l.command ≠ .tasks →
          Config.load t host.cwd host.env l.directory l.overrides ≠ .ok c) ∧
      ((run host elapsed args t).machine.started ≠ [] → ∃ l later,
        CommandLine.parse args = .ok l ∧
        (run host elapsed args t).machine.started = .clean :: later ∧
        later <+: (l.requests.filter (· ≠ .clean)).eraseDups ∧ .clean ∉ later) := by
  refine ⟨fun requests => Graph.plan_standard_eq, fun host elapsed args t => ?_⟩
  have hsome {l : CommandLine} {c : Config} (hparse : CommandLine.parse args = .ok l)
      (htasks : l.command ≠ .tasks)
      (hload : Config.load t host.cwd host.env l.directory l.overrides = .ok c) :
      ∃ later, (run host elapsed args t).machine.started = .clean :: later ∧
        later <+: (l.requests.filter (· ≠ .clean)).eraseDups :=
    started_of_load hparse htasks hload
  constructor
  · refine ⟨fun hnone l c hparse htasks hload => ?_, started_of_not_load⟩
    obtain ⟨later, hstarted, -⟩ := hsome hparse htasks hload
    rw [hnone] at hstarted
    cases hstarted
  · intro hne
    by_contra hnot
    refine hne (started_of_not_load fun l c hparse htasks hload => hnot ?_)
    obtain ⟨later, hstarted, hlater⟩ := hsome hparse htasks hload
    exact ⟨l, later, hparse, hstarted, hlater, fun hmem =>
      Graph.clean_not_mem_others (hlater.subset hmem)⟩

/-- Cleaning is requested twice, between and behind tasks that need it. -/
theorem run_cleans_first_interleaved :
    Graph.standard.plan [.test, .clean, .compile, .test, .clean] =
      .ok [.clean, .test, .compile] ∧
    ∃ later, (run crashingHost ⟨0, 0⟩ ["run", "test", "clean", "compile", "-C", "/p", "test",
        "clean"] vacant).machine.started = .clean :: later ∧
      later <+: [.test, .compile] ∧ .clean ∉ later := by
  have hparse : CommandLine.parse ["run", "test", "clean", "compile", "-C", "/p", "test",
      "clean"] = .ok ⟨⟨some ⟨"/p"⟩, none, none, none, none, false⟩, .run,
        [.test, .clean, .compile, .test, .clean], false, []⟩ := by
    decide +kernel
  have hload : Config.load vacant [] [] ⟨"/p"⟩ .none = .ok (Config.withRoot ⟨"/p"⟩) := by
    decide +kernel
  have hothers : ([.test, .clean, .compile, .test, .clean].filter (· ≠ Task.clean)).eraseDups =
      [.test, .compile] := by
    decide
  obtain ⟨hplan, hruns⟩ := run_cleans_first
  obtain ⟨hnone, hsome⟩ := hruns crashingHost ⟨0, 0⟩ ["run", "test", "clean", "compile", "-C",
    "/p", "test", "clean"] vacant
  refine ⟨by rw [hplan _ (by simp), hothers], ?_⟩
  obtain ⟨l, later, hread, hstarted, hlater, honce⟩ := hsome fun hempty =>
    hnone.mp hempty _ _ hparse (by decide) hload
  obtain rfl := Except.ok.inj (hread.symm.trans hparse)
  exact ⟨later, hstarted, hothers ▸ hlater, honce⟩

end Command

end Zipship
