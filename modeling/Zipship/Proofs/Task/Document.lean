import Zipship.Proofs.Json.Reading
import Zipship.Proofs.Text.Encoding
import Zipship.Task.ReportJson

/-!
# The document of a run loses nothing

Whoever is sent the report of a run in JSON can take it apart again: each part of the document has
a reader here, which only knows the names of the fields and looks for them anywhere in an object.
What the readers find is the `account` of the run, which is the report with its failure as somebody
is told about it. So two runs are written alike exactly if their accounts agree
(`compact_faithful`). There is a document as long as every path in the report is a text
(`exists_document_iff`).
-/

namespace Zipship

variable {α : Type}

namespace Json

/-! ## Readers of values -/

/-- A truth value. -/
def bool? : Json → Option Bool
  | bool b => some b
  | _ => none

/-- A whole number. -/
def int? : Json → Option Int
  | int n => some n
  | _ => none

/-- A number that is not negative. -/
def nat? (j : Json) : Option Nat := j.int?.bind Int.toNat?

/-- A text. -/
def str? : Json → Option String
  | str s => some s
  | _ => none

/-- A path that is written as a text. -/
def toPath? (j : Json) : Option Path := j.str?.map fun s => ⟨s⟩

/-- A task that is written as its name. -/
def task? (j : Json) : Option Task := j.str?.bind Task.ofName?

/-- The items of an array. -/
def items? (item : Json → Option α) : Json → Option (List α)
  | arr items => items.mapM item
  | _ => none

/-- A value that may be missing. -/
def nullable? (value : Json → Option α) : Json → Option (Option α)
  | null => some none
  | j => (value j).map some

/-- What a field of an object is read as. -/
def fieldAs? (key : String) (value : Json → Option α) (j : Json) : Option α :=
  (j.field? key).bind value

@[simp] theorem bool?_bool (b : Bool) : (bool b).bool? = some b := rfl

@[simp] theorem int?_int (n : Int) : (int n).int? = some n := rfl

@[simp] theorem nat?_nat (n : Nat) : (nat n).nat? = some n := rfl

@[simp] theorem str?_str (s : String) : (str s).str? = some s := rfl

@[simp] theorem task?_task (t : Task) : (task t).task? = some t := Task.ofName?_name t

/-- A path that is written is a text, and is read again. -/
theorem toPath?_of_path? {p : Path} {j : Json} (h : path? p = some j) : j.toPath? = some p := by
  obtain ⟨s, hs, rfl⟩ := Option.map_eq_some_iff.mp h
  have hbytes : (⟨s⟩ : Path) = p := congrArg Path.mk (Bytes.toString?_eq_some_iff.mp hs)
  exact congrArg some hbytes

theorem path?_isSome_iff {p : Path} : (path? p).isSome ↔ ∃ s : String, p.bytes = s := by
  rw [path?, Option.isSome_map, Option.isSome_iff_exists]
  exact exists_congr fun s => Bytes.toString?_eq_some_iff.trans eq_comm

/-- An array is read when each of its items is. -/
theorem items?_arr {item : Json → Option α} {write : α → Option Json}
    (h : ∀ a j, write a = some j → item j = some a) {as : List α} {items : List Json}
    (hitems : as.mapM write = some items) : (arr items).items? item = some as := by
  show items.mapM item = some as
  induction as generalizing items with
  | nil =>
    cases hitems
    rfl
  | cons a as ih =>
    simp only [List.mapM_cons, Option.bind_eq_bind, Option.bind_eq_some_iff, Option.pure_def,
      Option.some.injEq] at hitems
    obtain ⟨j, hj, rest, hrest, rfl⟩ := hitems
    simp [h a j hj, ih hrest]

/-- An array that is written item by item. -/
theorem items?_arr_map {item : Json → Option α} {write : α → Json}
    (h : ∀ a, item (write a) = some a) (as : List α) :
    (arr (as.map write)).items? item = some as :=
  items?_arr (fun a _ he => Option.some.inj he ▸ h a) List.mapM_pure

/-- Items can be written if each of them can. -/
theorem mapM_isSome_iff {β : Type} {write : α → Option β} {as : List α} :
    (as.mapM write).isSome ↔ ∀ a ∈ as, (write a).isSome := by
  induction as with
  | nil => simp
  | cons a as ih =>
    rw [List.forall_mem_cons, ← ih]
    cases hwrite : write a <;> cases hrest : as.mapM write <;> simp [hwrite, hrest]

end Json

/-! ## Readers of reports -/

/-- A report on cleaning. -/
def Clean.Report.ofJson? (j : Json) : Option Clean.Report := do
  let removed ← j.fieldAs? "removed" (Json.items? Json.toPath?)
  let bytesFreed ← j.fieldAs? "bytes_freed" Json.nat?
  let dryRun ← j.fieldAs? "dry_run" Json.bool?
  return { removed, bytesFreed, dryRun }

/-- A report on packaging. -/
def Package.Report.ofJson? (j : Json) : Option Package.Report := do
  let artifact ← j.fieldAs? "artifact" Json.toPath?
  let interpreter ← j.fieldAs? "interpreter" Json.str?
  let entries ← j.fieldAs? "entries" Json.nat?
  let sizeBytes ← j.fieldAs? "size_bytes" Json.nat?
  let sha256 ← j.fieldAs? "sha256" Json.str?
  let hasEntryPoint ← j.fieldAs? "has_entry_point" Json.bool?
  return { artifact, interpreter, entries, sizeBytes, sha256, hasEntryPoint }

/-- A report on running the tests. -/
def Testing.Report.ofJson? (j : Json) : Option Testing.Report := do
  let command ← j.fieldAs? "command" Json.str?
  let coverage ← j.fieldAs? "coverage" Json.bool?
  let success ← j.fieldAs? "success" Json.bool?
  let exitCode ← j.fieldAs? "exit_code" Json.int?
  return { command, coverage, success, exitCode }

namespace Task

/-- An outcome: which report it holds is told by the name of its task. -/
def Outcome.ofJson? (j : Json) : Option Outcome := do
  match ← j.fieldAs? "task" Json.task? with
  | .clean => (Clean.Report.ofJson? j).map .clean
  | .compile => (Package.Report.ofJson? j).map .compile
  | .test => (Testing.Report.ofJson? j).map .test
  | .testWithCoverage => (Testing.Report.ofJson? j).map .testWithCoverage

/-- A failure as somebody is told about it: its error is a message and an exit code. -/
structure Notice where
  task : Task
  message : String
  exitCode : Int
  deriving DecidableEq, Repr

/-- The notice of a failure. -/
def Failure.notice (f : Failure) : Notice := ⟨f.task, f.error.message, f.error.exitCode⟩

/-- The notice that is written as an object. -/
def Notice.ofJson? (j : Json) : Option Notice := do
  let task ← j.fieldAs? "task" Json.task?
  let message ← j.fieldAs? "message" Json.str?
  let exitCode ← j.fieldAs? "exit_code" Json.int?
  return { task, message, exitCode }

end Task

namespace RunReport

/-- The report of a run with its failure as somebody is told about it. -/
structure Account where
  plan : List Task
  completed : List Task.Outcome
  failed : Option Task.Notice
  deriving DecidableEq, Repr

/-- The account of a run. -/
def account (r : RunReport) : Account := ⟨r.plan, r.completed, r.failed.map Task.Failure.notice⟩

/-- The account that a document gives of a run. -/
def Account.ofJson? (j : Json) : Option Account := do
  let plan ← j.fieldAs? "plan" (Json.items? Json.task?)
  let completed ← j.fieldAs? "completed" (Json.items? Task.Outcome.ofJson?)
  let failed ← j.fieldAs? "failed" (Json.nullable? Task.Notice.ofJson?)
  return { plan, completed, failed }

end RunReport

/-! ## What the readers find -/

section Fields

variable {key other : String} {value : Json → Option α} {j : Json} {fields : List (String × Json)}

@[simp] theorem Json.fieldAs?_head :
    (Json.obj ((key, j) :: fields)).fieldAs? key value = value j := by
  simp [fieldAs?, field?]

@[simp] theorem Json.fieldAs?_tail (h : key ≠ other) :
    (Json.obj ((other, j) :: fields)).fieldAs? key value =
      (Json.obj fields).fieldAs? key value := by
  simp [fieldAs?, field?, List.lookup_cons, beq_false_of_ne h]

end Fields

section Outcomes

variable {task : Json} {fields : List (String × Json)}

theorem Clean.Report.ofJson?_fields {r : Clean.Report} (h : r.fields? = some fields) :
    ofJson? (.obj (("task", task) :: fields)) = some r := by
  obtain ⟨removed, hremoved, rfl⟩ := Option.map_eq_some_iff.mp h
  simp [ofJson?, Json.items?_arr (fun _ _ => Json.toPath?_of_path?) hremoved]

theorem Package.Report.ofJson?_fields {r : Package.Report} (h : r.fields? = some fields) :
    ofJson? (.obj (("task", task) :: fields)) = some r := by
  obtain ⟨artifact, hartifact, rfl⟩ := Option.map_eq_some_iff.mp h
  simp [ofJson?, Json.toPath?_of_path? hartifact]

theorem Testing.Report.ofJson?_fields (task : Json) (r : Testing.Report) :
    ofJson? (.obj (("task", task) :: r.fields)) = some r := by
  simp [ofJson?, Testing.Report.fields]

/-- The name of the task in front hides none of the fields of the report. -/
theorem Task.Outcome.ofJson?_toJson? {o : Outcome} {j : Json} (h : o.toJson? = some j) :
    ofJson? j = some o := by
  obtain ⟨fields, hfields, rfl⟩ := Option.map_eq_some_iff.mp h
  unfold ofJson?
  rw [Json.fieldAs?_head, Json.task?_task]
  cases o with
  | clean r => exact congrArg (Option.map clean) (Clean.Report.ofJson?_fields hfields)
  | compile r => exact congrArg (Option.map compile) (Package.Report.ofJson?_fields hfields)
  | test r =>
    cases hfields
    exact congrArg (Option.map test) (r.ofJson?_fields (.task .test))
  | testWithCoverage r =>
    cases hfields
    exact congrArg (Option.map testWithCoverage) (r.ofJson?_fields (.task .testWithCoverage))

end Outcomes

namespace Task

variable {f f' : Failure} {failed failed' : Option Failure}

theorem Notice.ofJson?_toJson (f : Failure) : ofJson? f.toJson = some f.notice := by
  simp [ofJson?, Failure.toJson, Failure.notice]

/-- Two failures that are told alike are written alike. -/
theorem Failure.toJson_congr (h : f.notice = f'.notice) : f.toJson = f'.toJson := by
  obtain ⟨htask, hmessage, hcode⟩ := Notice.mk.inj h
  simp only [toJson, htask, hmessage, hcode]

theorem Failure.map_toJson_congr (h : failed.map notice = failed'.map notice) :
    failed.map toJson = failed'.map toJson := by
  cases failed with
  | none =>
    cases failed' with
    | none => rfl
    | some f' => contradiction
  | some f =>
    cases failed' with
    | none => contradiction
    | some f' => exact congrArg some (toJson_congr (Option.some.inj h))

/-- The paths in an outcome. -/
def Outcome.paths : Outcome → List Path
  | clean r => r.removed
  | compile r => [r.artifact]
  | test _ | testWithCoverage _ => []

/-- An outcome can be written if its paths are texts. -/
theorem Outcome.toJson?_isSome_iff {o : Outcome} :
    o.toJson?.isSome ↔ ∀ p ∈ o.paths, ∃ s : String, p.bytes = s := by
  unfold toJson?
  rw [Option.isSome_map]
  cases o with
  | clean r =>
    show (r.fields?).isSome ↔ _
    rw [Clean.Report.fields?, Option.isSome_map, Json.mapM_isSome_iff]
    exact forall₂_congr fun p _ => Json.path?_isSome_iff
  | compile r =>
    show (r.fields?).isSome ↔ _
    rw [Package.Report.fields?, Option.isSome_map, Json.path?_isSome_iff]
    simp [paths]
  | test _ | testWithCoverage _ => simp [fields?, paths]

end Task

namespace RunReport

variable {r r' : RunReport} {doc doc' : Json}

/-- The paths in a report. -/
def paths (r : RunReport) : List Path := r.completed.flatMap Task.Outcome.paths

/-- There is a document of a report if its paths are texts. -/
theorem exists_document_iff :
    r.toJson?.isSome ↔ ∀ p ∈ r.paths, ∃ s : String, p.bytes = s := by
  unfold toJson? paths
  rw [Option.isSome_map, Json.mapM_isSome_iff]
  simp only [Task.Outcome.toJson?_isSome_iff, List.mem_flatMap]
  exact ⟨fun h p ⟨o, ho, hp⟩ => h o ho p hp, fun h o ho p hp => h p ⟨o, ho, hp⟩⟩

theorem nullable?_failed (failed : Option Task.Failure) :
    ((failed.map Task.Failure.toJson).getD .null).nullable? Task.Notice.ofJson? =
      some (failed.map Task.Failure.notice) := by
  cases failed with
  | none => rfl
  | some f => exact congrArg (Option.map some) (Task.Notice.ofJson?_toJson f)

theorem Account.ofJson?_toJson? (h : r.toJson? = some doc) : ofJson? doc = some r.account := by
  obtain ⟨completed, hcompleted, rfl⟩ := Option.map_eq_some_iff.mp h
  have hplan := Json.items?_arr_map Json.task?_task r.plan
  have houtcomes := Json.items?_arr (fun _ _ => Task.Outcome.ofJson?_toJson?) hcompleted
  have hfailed := nullable?_failed r.failed
  simp [ofJson?, account, hplan, houtcomes, hfailed]

/-- Two reports with one account are written alike. -/
theorem toJson?_congr (h : r.account = r'.account) : r.toJson? = r'.toJson? := by
  obtain ⟨hplan, hcompleted, hfailed⟩ := Account.mk.inj h
  simp only [toJson?, hplan, hcompleted, Task.Failure.map_toJson_congr hfailed]

/-- Two accounts agree if the plans, the completed tasks and the failures do, these in all that
somebody is told about them. -/
theorem account_eq_iff : r.account = r'.account ↔
    r.plan = r'.plan ∧ r.completed = r'.completed ∧
      (r.failed = none ∧ r'.failed = none ∨
        ∃ f f', r.failed = some f ∧ r'.failed = some f' ∧ f.task = f'.task ∧
          f.error.message = f'.error.message ∧ f.error.exitCode = f'.error.exitCode) := by
  rw [account, account, Account.mk.injEq]
  refine and_congr_right' (and_congr_right' ?_)
  cases r.failed <;> cases r'.failed <;> simp [Task.Failure.notice]

/-- **The document of a run loses nothing**, if the paths in it are texts. What a reader of JSON
finds in its text is the account of the run: the plan, every completed task with every field of its
report, and the task, the message and the exit code of the failure if there was one. The texts of
two runs are equal exactly if all of this agrees. -/
theorem compact_faithful (htexts : ∀ p ∈ r.paths, ∃ s : String, p.bytes = s)
    (htexts' : ∀ p ∈ r'.paths, ∃ s : String, p.bytes = s) :
    ∃ doc doc', r.toJson? = some doc ∧ r'.toJson? = some doc' ∧
      (Json.read? doc.compact).bind Account.ofJson? = some r.account ∧
      (doc.compact = doc'.compact ↔
        r.plan = r'.plan ∧ r.completed = r'.completed ∧
          (r.failed = none ∧ r'.failed = none ∨
            ∃ f f', r.failed = some f ∧ r'.failed = some f' ∧ f.task = f'.task ∧
              f.error.message = f'.error.message ∧ f.error.exitCode = f'.error.exitCode)) := by
  obtain ⟨doc, hdoc⟩ := Option.isSome_iff_exists.mp (exists_document_iff.mpr htexts)
  obtain ⟨doc', hdoc'⟩ := Option.isSome_iff_exists.mp (exists_document_iff.mpr htexts')
  have hread : (Json.read? doc.compact).bind Account.ofJson? = some r.account := by
    rw [Json.read?_compact, Option.bind_some, Account.ofJson?_toJson? hdoc]
  refine ⟨doc, doc', hdoc, hdoc', hread, ?_⟩
  rw [← account_eq_iff]
  constructor
  · intro hsame
    rw [hsame, Json.read?_compact, Option.bind_some, Account.ofJson?_toJson? hdoc'] at hread
    exact (Option.some.inj hread).symm
  · intro haccount
    rw [← toJson?_congr haccount, hdoc] at hdoc'
    rw [Option.some.inj hdoc']

/-- A clean that removed a directory, and one that removed nothing, are told apart. -/
theorem compact_faithful_clean :
    ∃ doc doc',
      RunReport.toJson? ⟨[.clean], [.clean ⟨[⟨"/p/target"⟩], 3, false⟩], none⟩ = some doc ∧
      RunReport.toJson? ⟨[.clean], [.clean ⟨[], 0, false⟩], none⟩ = some doc' ∧
      doc.compact ≠ doc'.compact := by
  have htexts : ∀ p ∈ RunReport.paths ⟨[.clean], [.clean ⟨[⟨"/p/target"⟩], 3, false⟩], none⟩,
      ∃ s : String, p.bytes = s := by
    intro p hp
    obtain rfl := List.mem_singleton.mp hp
    exact ⟨"/p/target", rfl⟩
  have htexts' : ∀ p ∈ RunReport.paths ⟨[.clean], [.clean ⟨[], 0, false⟩], none⟩,
      ∃ s : String, p.bytes = s := by
    intro p hp
    cases hp
  obtain ⟨doc, doc', hdoc, hdoc', -, hiff⟩ := compact_faithful htexts htexts'
  refine ⟨doc, doc', hdoc, hdoc', fun hsame => ?_⟩
  have hcompleted := (hiff.mp hsame).2.1
  simp at hcompleted

end RunReport

end Zipship
