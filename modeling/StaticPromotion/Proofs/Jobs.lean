import StaticPromotion.Command.Batch
import StaticPromotion.Proofs.FileChanges

/-!
# What one job reads and writes

A job reads its file, saves its trace and may save a text; it stops at no fault. Its result is a matter of the bytes of the
file alone, unless the text cannot be saved, and replacing a file always succeeds.

* `Job.outcome`             the result for the bytes of a file;
* `Job.target?`             where the new text goes, if it goes anywhere;
* `Job.saves`               whether the job meets no error of the file tree;
* `Job.attempt_cases`, `Job.conclude_cases`    the two halves of a job;
* `Job.process_limited`     the files that may change;
* `Job.process_outcome`, `Job.process_settled`    the result, and the file itself if it is the one to be replaced.
-/

namespace StaticPromotion.Job

variable {tools : Tools} {mode : Mode} {job : Job} {s : CommandState} {place : Location}
  {bytes : List UInt8} {r : RunResult} {ε : Type}

/-! ## results -/

def outcome (tools : Tools) (mode : Mode) (bytes : List UInt8) : RunResult :=
  match refactor tools mode bytes with
  | .ok done => done.1
  | .error fault => failed (.fault fault)

def target? (mode : Mode) (job : Job) (r : RunResult) : Option Path :=
  if mode.checkOnly || !r.success then none
  else
    match job.dest with
    | some dest => some dest
    | none => if r.changed then some job.input else none

/-- the bytes of a file that is to be replaced, after its job -/
def settled (tools : Tools) (mode : Mode) (bytes : List UInt8) : List UInt8 :=
  let r := outcome tools mode bytes
  if !mode.checkOnly && r.success && r.changed then Utf8.encode r.code else bytes

def saves (tools : Tools) (mode : Mode) (job : Job) (s : CommandState) : Bool :=
  match job.attempt tools mode s with
  | .error (.file _) _ => false
  | _ => true

theorem target?_eq_some {q : Path} (h : job.target? mode r = some q) :
    mode.checkOnly = false ∧ r.success = true ∧
      (job.dest = some q ∨ job.dest = none ∧ r.changed = true ∧ q = job.input) := by
  unfold target? at h
  cases hcheck : mode.checkOnly with
  | true =>
    rw [hcheck] at h
    cases h
  | false =>
    cases hsuccess : r.success with
    | false =>
      rw [hcheck, hsuccess] at h
      cases h
    | true =>
      rw [hcheck, hsuccess] at h
      refine ⟨rfl, rfl, ?_⟩
      cases hdest : job.dest with
      | some dest =>
        rw [hdest] at h
        exact .inl h
      | none =>
        rw [hdest] at h
        cases hchanged : r.changed with
        | false =>
          rw [hchanged] at h
          cases h
        | true =>
          rw [hchanged] at h
          cases h
          exact .inr ⟨rfl, rfl, rfl⟩

theorem settled_eq (job : Job) (hdest : job.dest = none) (bytes : List UInt8) :
    settled tools mode bytes =
      if (job.target? mode (outcome tools mode bytes)).isSome then
        Utf8.encode (outcome tools mode bytes).code
      else bytes := by
  rw [settled, target?, hdest]
  generalize outcome tools mode bytes = r
  cases mode.checkOnly <;> cases r.success <;> cases r.changed <;> rfl

/-! ## the two halves of a job -/

/-- shows the log and saves the trace -/
def announce (tools : Tools) (job : Job) (done : RunResult × Journal) : Command JobError Unit := do
  Command.showLog tools.verbose done.2.log.toList
  if let some trace := job.trace then saveTrace trace done.1.trace

/-- saves the text, or says what would change -/
def conclude (mode : Mode) (job : Job) (result : RunResult) : Command JobError RunResult := do
  if mode.checkOnly then
    if result.changed then
      Command.say .info s!"Would change: {Command.marked job.input} {methodCount result}"
  else if result.success then
    (job.saveText result).recover fun e => throw (.file e)
  return result

theorem limited_noteTrace (p : Path) {paths : List Path} :
    Command.Limited paths (noteTrace p : Command ε Unit) := by
  refine Command.limited_of_files fun s => ?_
  rw [noteTrace, Run.after_modify]
  cases s.files.lookup p <;> rfl

theorem limited_save (p : Path) (text : String) : Command.Limited [p] (save p text) :=
  .change (FileTree.limited_writeBelow p _)

theorem limited_saveTrace (p : Path) (trace : Trace) : Command.Limited [p] (saveTrace p trace) := by
  refine Command.Limited.recover ?_ fun e => Command.limited_say _ _
  exact (limited_save p _).bind fun _ => (limited_noteTrace p).bind fun _ => Command.limited_say _ _

theorem saveTrace_ok (p : Path) (trace : Trace) (s : CommandState) :
    ∃ s', saveTrace p trace s = .ok () s' := by
  obtain ⟨_, s', h⟩ := Command.recover_returns (fun _ _ => ⟨(), _, rfl⟩) s
  exact ⟨s', h⟩

theorem limited_announce (tools : Tools) (job : Job) (done : RunResult × Journal) :
    Command.Limited job.trace.toList (job.announce tools done) := by
  unfold announce
  refine (Command.limited_showLog _ _).bind fun _ => ?_
  cases htrace : job.trace with
  | none => exact Command.limited_pure _
  | some p => exact limited_saveTrace p _

theorem announce_ok (tools : Tools) (job : Job) (done : RunResult × Journal) (s : CommandState) :
    ∃ s', job.announce tools done s = .ok () s' := by
  rw [announce, Command.showLog, Run.modify_bind]
  cases job.trace with
  | none => exact ⟨_, rfl⟩
  | some p => exact saveTrace_ok p _ _

theorem read_of_file (h : s.files.lookup job.input = .file place bytes) :
    read job.input s = .ok bytes s := by
  rw [read, Run.get_bind, h]
  rfl

theorem attempt_cases (tools : Tools) (mode : Mode) (h : s.files.lookup job.input = .file place bytes) :
    (∃ fault, refactor tools mode bytes = .error fault ∧
        job.attempt tools mode s = .error (.fault fault) s) ∨
      ∃ done s₁, refactor tools mode bytes = .ok done ∧
        FileTree.Changes (s.files.Among job.trace.toList) s.files s₁.files ∧
        job.attempt tools mode s = job.conclude mode done.1 s₁ := by
  unfold attempt
  rw [Run.bind_of_ok (read_of_file h)]
  cases hdone : refactor tools mode bytes with
  | error fault => exact .inl ⟨fault, rfl, rfl⟩
  | ok done =>
    obtain ⟨s₁, hannounced⟩ := announce_ok tools job done s
    have hchanges := limited_announce tools job done s
    rw [hannounced, Run.after_ok] at hchanges
    refine .inr ⟨done, s₁, rfl, hchanges, ?_⟩
    have hconclude := Run.bind_of_ok (f := fun _ => job.conclude mode done.1) hannounced
    rw [← hconclude]
    unfold announce conclude
    cases job.trace <;> rfl

theorem saveText_cases (job : Job) (r : RunResult) (s : CommandState) :
    (job.dest = none ∧ r.changed = false ∧ job.saveText r s = .ok () s) ∨
      ∃ q c, (c = FileTree.writeBelow q (Utf8.encode r.code) ∧ job.dest = some q ∨
          c = FileTree.write q (Utf8.encode r.code) ∧ job.dest = none ∧ r.changed = true ∧ q = job.input) ∧
        ((∃ t s', c s.files = .ok () t ∧ job.saveText r s = .ok () s' ∧ s'.files = t) ∨
          ∃ e t s', c s.files = .error e t ∧ job.saveText r s = .error e s' ∧ s'.files = t) := by
  unfold saveText
  cases hdest : job.dest with
  | some q =>
    refine .inr ⟨q, _, .inl ⟨rfl, rfl⟩, ?_⟩
    cases hsaved : FileTree.writeBelow q (Utf8.encode r.code) s.files with
    | ok _ t => exact .inl ⟨t, _, rfl, Run.bind_of_ok (Command.change_of_ok hsaved), rfl⟩
    | error e t => exact .inr ⟨e, t, _, rfl, Run.bind_of_error (Command.change_of_error hsaved), rfl⟩
  | none =>
    cases hchanged : r.changed with
    | false => exact .inl ⟨rfl, rfl, rfl⟩
    | true =>
      refine .inr ⟨job.input, _, .inr ⟨rfl, rfl, rfl, rfl⟩, ?_⟩
      cases hsaved : FileTree.write job.input (Utf8.encode r.code) s.files with
      | ok _ t => exact .inl ⟨t, _, rfl, Run.bind_of_ok (Command.change_of_ok hsaved), rfl⟩
      | error e t => exact .inr ⟨e, t, _, rfl, Run.bind_of_error (Command.change_of_error hsaved), rfl⟩

theorem conclude_cases (mode : Mode) (job : Job) (r : RunResult) (s : CommandState) :
    (job.target? mode r = none ∧ ∃ s', job.conclude mode r s = .ok r s' ∧ s'.files = s.files) ∨
      ∃ q c, job.target? mode r = some q ∧
        (c = FileTree.writeBelow q (Utf8.encode r.code) ∧ job.dest = some q ∨
          c = FileTree.write q (Utf8.encode r.code) ∧ job.dest = none ∧ q = job.input) ∧
        ((∃ t s', c s.files = .ok () t ∧ job.conclude mode r s = .ok r s' ∧ s'.files = t) ∨
          ∃ e t s', c s.files = .error e t ∧ job.conclude mode r s = .error (.file e) s' ∧ s'.files = t) := by
  unfold target? conclude
  cases hcheck : mode.checkOnly with
  | true =>
    refine .inl ⟨rfl, ?_⟩
    cases r.changed <;> exact ⟨_, rfl, rfl⟩
  | false =>
    cases hsuccess : r.success with
    | false => exact .inl ⟨rfl, _, rfl, rfl⟩
    | true =>
      rcases saveText_cases job r s with ⟨hdest, hchanged, hsaved⟩ | ⟨q, c, hc, hends⟩
      · rw [hdest, hchanged]
        exact .inl ⟨rfl, s, Run.bind_of_ok (Command.recover_of_ok hsaved), rfl⟩
      · refine .inr ⟨q, c, ?_, hc.imp_right fun h => ⟨h.1, h.2.1, h.2.2.2⟩, ?_⟩
        · rcases hc with ⟨-, hdest⟩ | ⟨-, hdest, hchanged, rfl⟩
          · rw [hdest]
            rfl
          · rw [hdest, hchanged]
            rfl
        · rcases hends with ⟨t, s', hchange, hsaved, hfiles⟩ | ⟨e, t, s', hchange, hsaved, hfiles⟩
          · exact .inl ⟨t, s', hchange, Run.bind_of_ok (Command.recover_of_ok hsaved), hfiles⟩
          · exact .inr ⟨e, t, s', hchange, Run.bind_of_error (Command.recover_of_error hsaved), hfiles⟩

theorem limited_conclude (mode : Mode) (job : Job) (r : RunResult) :
    Command.Limited (job.target? mode r).toList (job.conclude mode r) := by
  intro s
  rcases conclude_cases mode job r s with ⟨-, s', hdone, hfiles⟩ | ⟨q, c, htarget, hc, hends⟩
  · rw [hdone, Run.after_ok, hfiles]
    exact .refl _ _
  · have hlimited : FileTree.Limited [q] c := by
      rcases hc with ⟨rfl, -⟩ | ⟨rfl, -⟩
      · exact FileTree.limited_writeBelow _ _
      · exact FileTree.limited_write _ _
    have hchanges := hlimited s.files
    rw [htarget]
    rcases hends with ⟨t, s', hchange, hdone, rfl⟩ | ⟨e, t, s', hchange, hdone, rfl⟩
    · rw [hchange] at hchanges
      rw [hdone]
      exact hchanges
    · rw [hchange] at hchanges
      rw [hdone]
      exact hchanges

/-- a file is replaced without fail -/
theorem conclude_in_place (mode : Mode) (r : RunResult) (hdest : job.dest = none)
    (h : s.files.lookup job.input = .file place bytes) :
    ∃ s', job.conclude mode r s = .ok r s' ∧ s'.files.lookup job.input =
      .file place (if (job.target? mode r).isSome then Utf8.encode r.code else bytes) := by
  rcases conclude_cases mode job r s with ⟨htarget, s', hdone, hfiles⟩ | ⟨q, c, htarget, hc, hends⟩
  · exact ⟨s', hdone, by rw [hfiles, h, htarget]; rfl⟩
  · rcases hc with ⟨-, hsome⟩ | ⟨rfl, -, rfl⟩
    · cases hdest.symm.trans hsome
    · have hwritten : FileTree.write job.input (Utf8.encode r.code) s.files =
          .ok () (s.files.putFile place (Utf8.encode r.code)) := by
        rw [FileTree.write, Run.get_bind, h]
        rfl
      rcases hends with ⟨t, s', hchange, hdone, rfl⟩ | ⟨e, t, s', hchange, hdone, rfl⟩
      · have hfiles : s'.files = s.files.putFile place (Utf8.encode r.code) := by
          rw [hwritten] at hchange
          injection hchange with _ hfiles
          exact hfiles.symm
        refine ⟨s', hdone, ?_⟩
        rw [hfiles, htarget]
        exact FileTree.lookup_putFile (.inl ⟨bytes, h⟩) _
      · cases hwritten.symm.trans hchange

/-! ## the whole job -/

theorem process_of_error {e : JobError} {s₁ : CommandState} (h : job.attempt tools mode s = .error e s₁) :
    ∃ s', (job.process tools mode : Command ε RunResult) s = .ok (failed e) s' ∧
      s'.files = s₁.files :=
  ⟨_, Command.recover_of_error h, rfl⟩

theorem outcome_of_ok {done : RunResult × Journal} (h : refactor tools mode bytes = .ok done) :
    outcome tools mode bytes = done.1 := by
  rw [outcome, h]

theorem outcome_of_error {fault : Fault} (h : refactor tools mode bytes = .error fault) :
    outcome tools mode bytes = failed (.fault fault) := by
  rw [outcome, h]

theorem process_returns (tools : Tools) (mode : Mode) (job : Job) (s : CommandState) :
    ∃ r s', (job.process tools mode : Command ε RunResult) s = .ok r s' :=
  Command.recover_returns (fun e _ => ⟨failed e, _, rfl⟩) s

section
variable (h : s.files.lookup job.input = .file place bytes)
include h

theorem attempt_limited (tools : Tools) (mode : Mode) :
    FileTree.Changes
      (s.files.Among (job.trace.toList ++ (job.target? mode (outcome tools mode bytes)).toList))
      s.files (Run.after (job.attempt tools mode s)).files := by
  rcases attempt_cases tools mode h with ⟨fault, -, hstop⟩ | ⟨done, s₁, hdone, hchanges, hrest⟩
  · rw [hstop]
    exact .refl _ _
  · have hconclude := limited_conclude mode job done.1 s₁
    rw [hchanges.among_eq] at hconclude
    rw [hrest, outcome_of_ok hdone]
    exact (hchanges.mono fun _ => FileTree.Among.mono fun _ => List.mem_append_left _).trans
      (hconclude.mono fun _ => FileTree.Among.mono fun _ => List.mem_append_right _)

theorem process_limited {s' : CommandState}
    (hdone : (job.process tools mode : Command ε RunResult) s = .ok r s') :
    FileTree.Changes
      (s.files.Among (job.trace.toList ++ (job.target? mode (outcome tools mode bytes)).toList))
      s.files s'.files := by
  have hchanges := attempt_limited h tools mode
  cases hattempt : job.attempt tools mode s with
  | ok r' s₁ =>
    cases (Command.recover_of_ok hattempt).symm.trans hdone
    rw [hattempt] at hchanges
    exact hchanges
  | error e s₁ =>
    obtain ⟨s₂, hfailed, hfiles⟩ := process_of_error (ε := ε) hattempt
    cases hfailed.symm.trans hdone
    rw [hattempt] at hchanges
    exact hfiles ▸ hchanges

/-- without an error of the file tree, the result is a matter of the bytes alone -/
theorem process_outcome {s' : CommandState} (hsaves : job.saves tools mode s = true)
    (hdone : (job.process tools mode : Command ε RunResult) s = .ok r s') :
    r = outcome tools mode bytes := by
  rcases attempt_cases tools mode h with ⟨fault, hfault, hstop⟩ | ⟨done, s₁, hrefactored, -, hrest⟩
  · obtain ⟨s₂, hfailed, -⟩ := process_of_error (ε := ε) hstop
    cases hfailed.symm.trans hdone
    exact (outcome_of_error hfault).symm
  · rw [outcome_of_ok hrefactored]
    have hok : ∀ s₂, job.conclude mode done.1 s₁ = .ok done.1 s₂ → r = done.1 := by
      intro s₂ hconcluded
      cases (Command.recover_of_ok (hrest.trans hconcluded)).symm.trans hdone
      rfl
    rcases conclude_cases mode job done.1 s₁ with ⟨-, s₂, hconcluded, -⟩ |
      ⟨q, c, -, -, ⟨t, s₂, -, hconcluded, -⟩ | ⟨e, t, s₂, -, hconcluded, -⟩⟩
    · exact hok s₂ hconcluded
    · exact hok s₂ hconcluded
    · rw [saves, hrest, hconcluded] at hsaves
      cases hsaves

/-- a job that may only replace its file meets no error, and its file holds the new text or what it held -/
theorem process_settled (tools : Tools) (mode : Mode) (hdest : job.dest = none)
    (htrace : ¬ s.files.Among job.trace.toList place) :
    ∃ s', (job.process tools mode : Command ε RunResult) s = .ok (outcome tools mode bytes) s' ∧
      s'.files.lookup job.input = .file place (settled tools mode bytes) := by
  rw [settled_eq job hdest]
  rcases attempt_cases tools mode h with ⟨fault, hfault, hstop⟩ | ⟨done, s₁, hdone, hchanges, hrest⟩
  · obtain ⟨s', hfailed, hfiles⟩ := process_of_error (ε := ε) hstop
    rw [outcome_of_error hfault]
    refine ⟨s', hfailed, ?_⟩
    rw [hfiles, h, target?]
    simp [failed]
  · rw [outcome_of_ok hdone]
    obtain ⟨s', hconcluded, hlookup⟩ :=
      conclude_in_place mode done.1 hdest (hchanges.lookup_eq h htrace)
    exact ⟨s', Command.recover_of_ok (hrest.trans hconcluded), hlookup⟩

end

end StaticPromotion.Job
