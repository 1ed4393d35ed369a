import StaticPromotion.Command
import StaticPromotion.Proofs.Jobs
import StaticPromotion.Proofs.Splicing

/-!
# Runs over many files

The jobs of a run are processed one after the other on the same files. If no job writes where another one reads, each result
is that for the bytes with which the run began.

* `FileTree.bytesAt`     the bytes of the file that a path leads to;
* `Command.workOf`       the jobs of a run, for a file or for the files below a directory;
* `Job.Apart`            no job writes where a job reads, and no file is read twice;
* `Command.savesAll`     whether every text of a row of jobs can be written;
* `Job.process_step`     what one job does, and so `Command.processAll_spec` what all of them do;
* `Command.WellPlaced`   a run that writes where it does not read. `WellPlaced.run_spec`;
* `Batch.exitCode_eq_zero_iff`   the exit code;
* `Command.run_keeps_files_apart`   all of it for a whole run.
-/

namespace StaticPromotion

variable {bytes : List UInt8} {place : Location} {p base : Path} {ε : Type} {files : List Path}

/-! ## the bytes at a path -/

def FileTree.bytesAt (t : FileTree) (p : Path) : List UInt8 :=
  match t.lookup p with
  | .file _ bytes => bytes
  | _ => []

theorem FileTree.bytesAt_eq {t : FileTree} (h : t.lookup p = .file place bytes) : t.bytesAt p = bytes := by
  rw [bytesAt, h]

theorem FileTree.exists_of_isFile {t : FileTree} (h : t.isFile p = true) :
    t.lookup p = .file (t.placeOf p) (t.bytesAt p) := by
  cases hlookup : t.lookup p with
  | file place bytes => rw [bytesAt_eq hlookup, (lookup_file hlookup).1]
  | _ =>
    rw [isFile, hlookup] at h
    cases h

theorem FileTree.isFile_of_lookup {t : FileTree} (h : t.lookup p = .file place bytes) :
    t.isFile p = true := by
  rw [isFile, h]

/-! ## one job after the other -/

/-- the paths that a job may write in any case: those of its trace and of its text -/
def Job.outputs (job : Job) : List Path :=
  job.trace.toList ++ job.dest.toList

/-- the paths that a job writes, given its result -/
def Job.written (mode : Mode) (job : Job) (r : RunResult) : List Path :=
  job.trace.toList ++ (job.target? mode r).toList

theorem Job.mem_written {mode : Mode} {job : Job} {r : RunResult} {q : Path}
    (h : q ∈ job.written mode r) : q ∈ job.outputs ∨ q = job.input := by
  rcases List.mem_append.mp h with htrace | htarget
  · exact .inl (List.mem_append_left _ htrace)
  · rcases (target?_eq_some (Option.mem_toList.mp htarget)).2.2 with hdest | ⟨-, -, hinput⟩
    · exact .inl (List.mem_append_right _ (Option.mem_toList.mpr hdest))
    · exact .inr hinput

/-- no job writes where a job reads, unless it replaces the very file, and no file is read twice -/
structure Job.Apart (t : FileTree) (jobs : List Job) : Prop where
  once : (jobs.map fun job => t.placeOf job.input).Nodup
  outputs : ∀ job ∈ jobs, ∀ other ∈ jobs, ¬ t.Among job.outputs (t.placeOf other.input)

section
variable {tools : Tools} {mode : Mode} {job : Job} {jobs : List Job} {t t' : FileTree}
  {s : CommandState}

theorem Job.Apart.tail (h : Job.Apart t (job :: jobs)) : Job.Apart t jobs where
  once := (List.nodup_cons.mp h.once).2
  outputs j hj other hother :=
    h.outputs j (List.mem_cons_of_mem _ hj) other (List.mem_cons_of_mem _ hother)

theorem Job.Apart.changes {free : Location → Prop} (h : Job.Apart t jobs)
    (hchanges : FileTree.Changes free t t') : Job.Apart t' jobs where
  once := by
    simp only [hchanges.placeOf_eq]
    exact h.once
  outputs j hj other hother := by
    rw [hchanges.among_eq, hchanges.placeOf_eq]
    exact h.outputs j hj other hother

/-- a job writes nothing that another one reads -/
theorem Job.Apart.not_written (h : Job.Apart t (job :: jobs)) {first second : Job}
    (hpair : first = job ∧ second ∈ jobs ∨ first ∈ jobs ∧ second = job) (r : RunResult) :
    ¬ t.Among (first.written mode r) (t.placeOf second.input) := by
  have hne : t.placeOf first.input ≠ t.placeOf second.input := by
    have hhead := (List.nodup_cons.mp h.once).1
    rcases hpair with ⟨rfl, hsecond⟩ | ⟨hfirst, rfl⟩
    · exact fun heq => hhead (List.mem_map.mpr ⟨second, hsecond, heq.symm⟩)
    · exact fun heq => hhead (List.mem_map.mpr ⟨first, hfirst, heq⟩)
  have hmem : first ∈ job :: jobs ∧ second ∈ job :: jobs := by
    rcases hpair with ⟨rfl, hsecond⟩ | ⟨hfirst, rfl⟩
    · exact ⟨List.mem_cons_self, List.mem_cons_of_mem _ hsecond⟩
    · exact ⟨List.mem_cons_of_mem _ hfirst, List.mem_cons_self⟩
  rintro ⟨q, hq, hplace⟩
  rcases Job.mem_written hq with houtput | rfl
  · exact h.outputs first hmem.1 second hmem.2 ⟨q, houtput, hplace⟩
  · exact hne hplace

/-- the bytes of the file of a job after the job -/
def Job.kept (tools : Tools) (mode : Mode) (job : Job) (bytes : List UInt8) : List UInt8 :=
  if job.dest = none then settled tools mode bytes else bytes

theorem Job.process_step (tools : Tools) (mode : Mode) (h : s.files.lookup job.input = .file place bytes)
    (houtputs : ¬ s.files.Among job.outputs place)
    (hsaves : job.dest = none ∨ job.saves tools mode s = true) :
    ∃ s', (job.process tools mode : Command ε RunResult) s = .ok (outcome tools mode bytes) s' ∧
      FileTree.Changes (s.files.Among (job.written mode (outcome tools mode bytes))) s.files s'.files ∧
      s'.files.lookup job.input = .file place (job.kept tools mode bytes) := by
  have htrace : ¬ s.files.Among job.trace.toList place := fun hamong =>
    houtputs (hamong.mono fun _ => List.mem_append_left _)
  cases hdest : job.dest with
  | none =>
    obtain ⟨s', hdone, hlookup⟩ := process_settled (ε := ε) h tools mode hdest htrace
    rw [Job.kept, if_pos hdest]
    exact ⟨s', hdone, process_limited h hdone, hlookup⟩
  | some dest =>
    have hsome : job.dest ≠ none := by rw [hdest]; exact Option.some_ne_none dest
    obtain ⟨r, s', hdone⟩ := process_returns (ε := ε) tools mode job s
    cases process_outcome h (hsaves.resolve_left hsome) hdone
    have hlimited := process_limited h hdone
    rw [Job.kept, if_neg hsome]
    refine ⟨s', hdone, hlimited, hlimited.lookup_eq h ?_⟩
    rintro ⟨q, hq, hplace⟩
    rcases List.mem_append.mp hq with hq | hq
    · exact htrace ⟨q, hq, hplace⟩
    · rcases (target?_eq_some (Option.mem_toList.mp hq)).2.2 with hq | ⟨hnone, -⟩
      · exact houtputs ⟨q, List.mem_append_right _ (Option.mem_toList.mpr hq), hplace⟩
      · exact hsome hnone

end

namespace Command

open CommandLine

variable {tools : Tools} {mode : Mode} {s : CommandState} {t : FileTree}

/-- Whether every text of a row of jobs can be written. Each job starts where the one before ends. -/
def savesAll (tools : Tools) (mode : Mode) : List Job → CommandState → Bool
  | [], _ => true
  | job :: rest, s =>
    job.saves tools mode s &&
      savesAll tools mode rest (Run.after ((job.process tools mode : Command CommandFault RunResult) s))

/-- the results of jobs for the bytes that their files hold in a tree -/
def resultsIn (tools : Tools) (mode : Mode) (t : FileTree) (work : List (String × Job)) : Batch :=
  work.map fun entry => (entry.1, Job.outcome tools mode (t.bytesAt entry.2.input))

/-- the places that jobs write, given the bytes that their files hold in a tree -/
def writtenIn (tools : Tools) (mode : Mode) (t : FileTree) (jobs : List Job) (l : Location) : Prop :=
  ∃ job ∈ jobs, t.Among (job.written mode (Job.outcome tools mode (t.bytesAt job.input))) l

/-- By induction over the jobs: the first one leaves the files of all others as they were, and they leave its file as it
left it. -/
theorem processAll_spec (tools : Tools) (mode : Mode) {work : List (String × Job)}
    (hfiles : ∀ job ∈ work.map (·.2), s.files.isFile job.input = true)
    (apart : Job.Apart s.files (work.map (·.2)))
    (hsaves : (∀ job ∈ work.map (·.2), job.dest = none) ∨
      savesAll tools mode (work.map (·.2)) s = true) :
    ∃ s', (processAll tools mode work : Command CommandFault Batch) s =
        .ok (resultsIn tools mode s.files work) s' ∧
      FileTree.Changes (writtenIn tools mode s.files (work.map (·.2))) s.files s'.files ∧
      ∀ job ∈ work.map (·.2), s'.files.lookup job.input = .file (s.files.placeOf job.input)
        (job.kept tools mode (s.files.bytesAt job.input)) := by
  induction work generalizing s with
  | nil => exact ⟨s, rfl, .refl _ _, fun _ h => absurd h List.not_mem_nil⟩
  | cons entry work ih =>
    obtain ⟨name, job⟩ := entry
    rw [List.map_cons] at *
    dsimp only at *
    have hhead := FileTree.exists_of_isFile (hfiles job List.mem_cons_self)
    obtain ⟨s₁, hdone, hchanges, hkept⟩ := Job.process_step (ε := CommandFault) tools mode
      hhead (apart.outputs job List.mem_cons_self job List.mem_cons_self)
      (hsaves.imp (fun h => h job List.mem_cons_self) fun h => (Bool.and_eq_true_iff.mp h).1)
    -- the files of the other jobs are as before
    have hothers : ∀ other ∈ work.map (·.2), s₁.files.lookup other.input =
        .file (s.files.placeOf other.input) (s.files.bytesAt other.input) := fun other hother =>
      hchanges.lookup_eq (FileTree.exists_of_isFile (hfiles other (List.mem_cons_of_mem _ hother)))
        (apart.not_written (.inl ⟨rfl, hother⟩) _)
    have hsame : ∀ other ∈ work.map (·.2), s₁.files.bytesAt other.input = s.files.bytesAt other.input :=
      fun other hother => FileTree.bytesAt_eq (hothers other hother)
    obtain ⟨s', hrest, hchanges', hkept'⟩ := ih (s := s₁)
      (fun other hother => FileTree.isFile_of_lookup (hothers other hother))
      (apart.tail.changes hchanges)
      (hsaves.imp (fun h other hother => h other (List.mem_cons_of_mem _ hother)) fun h => by
        have hafter := (Bool.and_eq_true_iff.mp h).2
        rwa [hdone, Run.after_ok] at hafter)
    have hwritten : ∀ l, writtenIn tools mode s₁.files (work.map (·.2)) l →
        writtenIn tools mode s.files (work.map (·.2)) l := by
      rintro l ⟨other, hother, hamong⟩
      rw [hchanges.among_eq, hsame other hother] at hamong
      exact ⟨other, hother, hamong⟩
    refine ⟨s', ?_, ?_, ?_⟩
    · have hbatch : resultsIn tools mode s₁.files work = resultsIn tools mode s.files work := by
        refine List.map_congr_left fun entry hentry => ?_
        rw [hsame entry.2 (List.mem_map_of_mem hentry)]
      rw [processAll, Run.bind_of_ok hdone, Run.bind_of_ok hrest, hbatch]
      rfl
    · refine (hchanges.mono fun l hl => ⟨job, List.mem_cons_self, hl⟩).trans
        (hchanges'.mono fun l hl => ?_)
      obtain ⟨other, hother, hamong⟩ := hwritten l hl
      exact ⟨other, List.mem_cons_of_mem _ hother, hamong⟩
    · intro other hother
      rcases List.mem_cons.mp hother with rfl | hother
      · refine hchanges'.lookup_eq hkept fun hl => ?_
        obtain ⟨later, hlater, hamong⟩ := hwritten _ hl
        exact apart.not_written (.inr ⟨hlater, rfl⟩) _ hamong
      · have hlast := hkept' other hother
        rw [hchanges.placeOf_eq, hsame other hother] at hlast
        exact hlast

/-! ## whole runs -/

def modeOf (settings : Settings) : Mode where
  strict := settings.strict
  checkOnly := settings.checkOnly

def workOf (t : FileTree) (settings : Settings) (a : RunArguments) :
    Except CommandFault (List (String × Job)) :=
  if t.isFile a.path then .ok [(a.path.name, fileJob t a)]
  else (sources t settings a.path).map (jobs a)

theorem isFile_of_keepIncluded {settings : Settings} {selected : List Path}
    (h : keepIncluded? t settings base selected = some files) : ∀ p ∈ files, t.isFile p = true := by
  fun_induction keepIncluded? t settings base selected generalizing files with
  | case1 =>
    cases h
    exact fun p hp => absurd hp List.not_mem_nil
  | case2 => cases h
  | case3 p rest _ _ ih => exact ih h
  | case4 p rest hfile _ ih =>
    obtain ⟨others, hothers, rfl⟩ := Option.map_eq_some_iff.mp h
    intro q hq
    rcases List.mem_cons.mp hq with rfl | hq
    · exact hfile
    · exact ih hothers q hq
  | case5 p rest _ ih => exact ih h

theorem isFile_of_sources {settings : Settings} (h : sources t settings base = .ok files) :
    ∀ p ∈ files, t.isFile p = true := by
  obtain ⟨selected, -, h⟩ := Run.of_except_bind h
  cases hkept : keepIncluded? t settings base selected with
  | none =>
    rw [hkept] at h
    cases h
  | some kept =>
    rw [hkept] at h
    cases h
    exact isFile_of_keepIncluded hkept

section
variable {settings : Settings} {a : RunArguments} {work : List (String × Job)}

theorem workOf_cases (h : workOf t settings a = .ok work) :
    t.isFile a.path = true ∧ work = [(a.path.name, fileJob t a)] ∨
      ∃ files, t.isFile a.path = false ∧ sources t settings a.path = .ok files ∧ work = jobs a files := by
  unfold workOf at h
  cases hfile : t.isFile a.path with
  | true =>
    rw [hfile] at h
    cases h
    exact .inl ⟨rfl, rfl⟩
  | false =>
    rw [hfile] at h
    cases hsources : sources t settings a.path with
    | error fault =>
      rw [hsources] at h
      cases h
    | ok files =>
      rw [hsources] at h
      cases h
      exact .inr ⟨files, rfl, rfl, rfl⟩

/-- every job of a run has a file to read, and a place for its text exactly if the run has one -/
theorem job_of_workOf (h : workOf t settings a = .ok work) {job : Job} (hjob : job ∈ work.map (·.2)) :
    t.isFile job.input = true ∧ (job.dest = none ↔ a.out = none) := by
  rcases workOf_cases h with ⟨hfile, rfl⟩ | ⟨files, -, hsources, rfl⟩
  · cases List.mem_singleton.mp hjob
    exact ⟨hfile, Option.map_eq_none_iff⟩
  · obtain ⟨entry, hentry, rfl⟩ := List.mem_map.mp hjob
    obtain ⟨p, hp, rfl⟩ := List.mem_map.mp hentry
    exact ⟨isFile_of_sources hsources p hp, Option.map_eq_none_iff⟩

/-- the state in which the first job starts -/
def startOf (a : RunArguments) (work : List (String × Job)) (s : CommandState) : CommandState :=
  if s.files.isFile a.path then s
  else Run.after ((say .info s!"Processing {work.length} files from {a.path.toText}..." :
    Command CommandFault Unit) s)

theorem files_startOf : (startOf a work s).files = s.files := by
  unfold startOf
  split <;> rfl

theorem runWith_of_work (tools : Tools) (h : workOf s.files settings a = .ok work) :
    (work = [] → ∃ s', runWith tools a settings s = .ok 0 s' ∧ s'.files = s.files) ∧
      (work ≠ [] → runWith tools a settings s =
        (do finish settings (← processAll tools (modeOf settings) work) : Command CommandFault Nat)
          (startOf a work s)) := by
  unfold runWith startOf
  rw [Run.get_bind]
  rcases workOf_cases h with ⟨hfile, rfl⟩ | ⟨files, hfile, hsources, rfl⟩
  · rw [hfile]
    exact ⟨fun hnil => absurd hnil (List.cons_ne_nil _ _), fun _ => rfl⟩
  · rw [hfile, hsources]
    cases files with
    | nil => exact ⟨fun _ => ⟨_, rfl, rfl⟩, fun hne => absurd rfl hne⟩
    | cons p files =>
      refine ⟨fun hnil => absurd hnil (List.cons_ne_nil _ _), fun _ => ?_⟩
      rw [jobs, List.length_map]
      rfl

theorem run_of_settings (there : s.files.exists? a.path = true)
    (loaded : Settings.load s.files tools.readTable
      (if s.files.isDir a.path then a.path else a.path.parent) (overrides a) = .ok settings) :
    run tools a s = runWith tools a settings s := by
  unfold run
  rw [Run.get_bind, there]
  simp only [Bool.not_true, Bool.false_eq_true, if_false, loaded]

/-! ## the report and the exit code -/

/-- whether a report can be written -/
def reportable (b : Batch) (p : Path) (t : FileTree) : Bool :=
  match FileTree.writeBelow p (Utf8.encode b.document.render) t with
  | .ok _ _ => true
  | .error _ _ => false

theorem summarize_returns (b : Batch) (checkOnly : Bool) (s : CommandState) :
    ∃ s', (b.summarize checkOnly : Command ε Unit) s = .ok () s' ∧ s'.files = s.files := by
  unfold Batch.summarize
  split <;> exact ⟨_, rfl, rfl⟩

theorem limited_report (b : Batch) (p : Path) : Limited [p] (b.report p : Command ε Unit) :=
  ((Job.limited_save p _).bind fun _ => limited_say _ _).recover fun _ => limited_say _ _

theorem report_of_reportable {b : Batch} (h : reportable b p s.files = true) :
    ∃ s' place, (b.report p : Command ε Unit) s = .ok () s' ∧
      s'.files.lookup p = .file place (Utf8.encode b.document.render) := by
  unfold reportable at h
  cases hwritten : FileTree.writeBelow p (Utf8.encode b.document.render) s.files with
  | error e t =>
    rw [hwritten] at h
    cases h
  | ok u t =>
    obtain ⟨place, hlookup⟩ := FileTree.lookup_of_writeBelow hwritten
    have hsaved := Run.bind_of_ok (f := fun _ => say .info s!"Report saved to {marked p}")
      (change_of_ok (s := s) hwritten)
    exact ⟨_, place, recover_of_ok (hsaved.trans rfl), hlookup⟩

theorem report_returns (b : Batch) (p : Path) (s : CommandState) :
    ∃ s', (b.report p : Command ε Unit) s = .ok () s' := by
  obtain ⟨_, s', h⟩ := recover_returns (fun _ _ => ⟨(), _, rfl⟩) s
  exact ⟨s', h⟩

/-- a run ends with the exit code of its batch, after writing nothing but the report -/
theorem finish_spec (settings : Settings) (b : Batch) (s : CommandState) :
    ∃ s', (finish settings b : Command ε Nat) s = .ok (b.exitCode settings.checkOnly) s' ∧
      FileTree.Changes (s.files.Among settings.jsonReport.toList) s.files s'.files ∧
      ∀ p, settings.jsonReport = some p → reportable b p s.files = true →
        ∃ place, s'.files.lookup p = .file place (Utf8.encode b.document.render) := by
  obtain ⟨s₁, hsummary, hfiles⟩ := summarize_returns (ε := ε) b settings.checkOnly s
  rw [finish, Run.bind_of_ok hsummary, ← hfiles]
  cases settings.jsonReport with
  | none => exact ⟨s₁, rfl, .refl _ _, fun p hp => by cases hp⟩
  | some p =>
    obtain ⟨s', hreport⟩ := report_returns (ε := ε) b p s₁
    refine ⟨s', Run.bind_of_ok hreport, ?_, fun q hq hreportable => ?_⟩
    · have hlimited := limited_report (ε := ε) b p s₁
      rw [hreport] at hlimited
      exact hlimited
    · cases hq
      obtain ⟨s₂, place, hreported, hlookup⟩ := report_of_reportable (ε := ε) hreportable
      cases hreport.symm.trans hreported
      exact ⟨place, hlookup⟩

end

end Command

namespace Batch

end Batch

namespace Command

variable {settings : Settings}

open CommandLine

/-! ## the whole run -/

/-- the paths of the report and of the traces -/
def sidePaths (settings : Settings) (work : List (String × Job)) : List Path :=
  settings.jsonReport.toList ++ work.flatMap fun entry => entry.2.trace.toList

/-- the paths of the new texts, if they do not replace the old ones -/
def destinations (work : List (String × Job)) : List Path :=
  work.flatMap fun entry => entry.2.dest.toList

theorem apart_of_paths {t : FileTree} {work : List (String × Job)}
    (once : (work.map fun entry => t.placeOf entry.2.input).Nodup)
    (aside : ∀ entry ∈ work, ∀ q ∈ sidePaths settings work ++ destinations work,
      t.placeOf q ≠ t.placeOf entry.2.input) : Job.Apart t (work.map (·.2)) where
  once := by
    rw [List.map_map]
    exact once
  outputs := by
    intro job hjob other hother
    obtain ⟨entry, hentry, rfl⟩ := List.mem_map.mp hjob
    obtain ⟨reader, hreader, rfl⟩ := List.mem_map.mp hother
    rintro ⟨q, hq, hplace⟩
    refine aside reader hreader q ?_ hplace
    rcases List.mem_append.mp hq with htrace | hdest
    · exact List.mem_append_left _ (List.mem_append_right _ (List.mem_flatMap.mpr ⟨entry, hentry, htrace⟩))
    · exact List.mem_append_right _ (List.mem_flatMap.mpr ⟨entry, hentry, hdest⟩)

/-- A run of jobs with its settings. Its report, traces and new texts go where none of its sources is, and no source is
selected by two paths. -/
structure WellPlaced (tools : Tools) (a : RunArguments) (settings : Settings) (s : CommandState)
    (work : List (String × Job)) : Prop where
  there : s.files.exists? a.path = true
  loaded : Settings.load s.files tools.readTable
    (if s.files.isDir a.path then a.path else a.path.parent) (overrides a) = .ok settings
  selected : workOf s.files settings a = .ok work
  once : (work.map fun entry => s.files.placeOf entry.2.input).Nodup
  aside : ∀ entry ∈ work, ∀ q ∈ sidePaths settings work ++ destinations work,
    s.files.placeOf q ≠ s.files.placeOf entry.2.input

theorem WellPlaced.run_spec {tools : Tools} {a : RunArguments}
    {s : CommandState} {work : List (String × Job)} (h : WellPlaced tools a settings s work)
    (saved : a.out = none ∨
      savesAll tools (modeOf settings) (work.map (·.2)) (startOf a work s) = true) :
    let b := resultsIn tools (modeOf settings) s.files work
    ∃ s₁ s', (processAll tools (modeOf settings) work : Command CommandFault Batch)
        (startOf a work s) = .ok b s₁ ∧
      run tools a s = .ok (b.exitCode settings.checkOnly) s' ∧
      FileTree.Changes (writtenIn tools (modeOf settings) s.files (work.map (·.2))) s.files s₁.files ∧
      FileTree.Changes (s.files.Among settings.jsonReport.toList) s₁.files s'.files ∧
      (∀ entry ∈ work, s'.files.bytesAt entry.2.input =
        if a.out = none then Job.settled tools (modeOf settings) (s.files.bytesAt entry.2.input)
        else s.files.bytesAt entry.2.input) ∧
      (work ≠ [] → ∀ p, settings.jsonReport = some p → reportable b p s₁.files = true →
        ∃ place, s'.files.lookup p = .file place (Utf8.encode b.document.render)) := by
  intro b
  rw [run_of_settings h.there h.loaded]
  have hstart : (startOf a work s).files = s.files := files_startOf
  by_cases hnone : work = []
  · obtain ⟨s', hrun, hfiles⟩ := (runWith_of_work tools h.selected).1 hnone
    subst hnone
    have hzero : b.exitCode settings.checkOnly = 0 := by
      cases settings.checkOnly <;> rfl
    refine ⟨startOf a [] s, s', rfl, hzero ▸ hrun, hstart ▸ .refl _ _, ?_,
      fun _ hentry => absurd hentry List.not_mem_nil, fun hne => absurd rfl hne⟩
    rw [hstart, hfiles]
    exact .refl _ _
  obtain ⟨s₁, hprocessed, hchanges, hkept⟩ := processAll_spec (s := startOf a work s) tools
    (modeOf settings)
    (fun job hjob => hstart ▸ (job_of_workOf h.selected hjob).1)
    (hstart ▸ apart_of_paths h.once h.aside)
    (saved.imp_left fun hout job hjob => (job_of_workOf h.selected hjob).2.mpr hout)
  rw [hstart] at hprocessed hchanges hkept
  obtain ⟨s', hfinished, hreport, hwritten⟩ := finish_spec (ε := CommandFault) settings b s₁
  rw [hchanges.among_eq] at hreport
  refine ⟨s₁, s', hprocessed, ?_, hchanges, hreport, ?_, fun _ => hwritten⟩
  · rw [(runWith_of_work tools h.selected).2 hnone, Run.bind_of_ok hprocessed]
    exact hfinished
  · -- the report is no source
    intro entry hentry
    have hjob : entry.2 ∈ work.map (·.2) := List.mem_map_of_mem hentry
    refine (FileTree.bytesAt_eq (hreport.lookup_eq (hkept entry.2 hjob) ?_)).trans ?_
    · rintro ⟨q, hq, hplace⟩
      exact h.aside entry hentry q (List.mem_append_left _ (List.mem_append_left _ hq)) hplace
    · rw [Job.kept]
      simp only [(job_of_workOf h.selected hjob).2]

theorem sources_of_select {t : FileTree} (parts : List FileTree.PatternPart)
    (hread : FileTree.readPattern settings.filePattern = .ok parts)
    (hselect : t.select (.below :: parts) base = files)
    (hsorted : files.Pairwise fun p q => Path.before p q = true)
    (hkept : keepIncluded? t settings base files = some files) : sources t settings base = .ok files := by
  unfold sources FileTree.selectBelow
  rw [hread]
  dsimp only [bind, Except.bind, pure, Except.pure]
  rw [hselect, List.mergeSort_of_pairwise hsorted]
  dsimp only [Except.mapError]
  rw [hkept]

end Command

end StaticPromotion
