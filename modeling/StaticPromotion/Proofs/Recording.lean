import StaticPromotion.Proofs.Bracketing
import StaticPromotion.Proofs.Rewriting

/-!
# What a run records

Every stage of a run opens a phase, and every visit of a class opens one of its own, which is left open when an inspection
stops with a fault. A run that fails closes all of them before it returns. So whatever happens, the trace of a run is one
phase with everything else nested inside.

* `Run.Silent`                      a step that records nothing;
* `Analysis.Writes events x`        a step that does nothing but record these events, and write to the log;
* `Analysis.enter_records`          the first half of a visit opens a phase and records an event for each outcome;
* `Table.tracks_analyze`, `Table.Reports.analyze`    the trace and the events of an analysis;
* `Table.notes_promote`             a promotion records one mutation for each splice;
* `Refactoring.run_records_one_phase`    the trace of a run.
-/

namespace StaticPromotion

variable {j' : Journal} {code : String}

namespace Run

variable {ε σ α β : Type}

/-- the state in which a step ends, with a value or with a fault -/
def final : EStateM.Result ε σ α → σ
  | .ok _ s => s
  | .error _ s => s

/-- a step that leaves the trace as it is, also where it stops with a fault -/
def Silent (trace : σ → Trace) (x : EStateM ε σ α) : Prop :=
  ∀ s, trace (final (x s)) = trace s

variable {trace : σ → Trace} {x : EStateM ε σ α}

theorem Silent.bind {f : α → EStateM ε σ β} (hx : Silent trace x) (hf : ∀ a, Silent trace (f a)) :
    Silent trace (x >>= f) := by
  intro s
  have hfirst := hx s
  cases hrun : x s with
  | ok a s₁ =>
    rw [hrun] at hfirst
    rw [bind_of_ok hrun, hf a s₁]
    exact hfirst
  | error e s₁ =>
    rw [hrun] at hfirst
    rw [bind_of_error hrun]
    exact hfirst

theorem silent_pure (a : α) : Silent trace (pure a : EStateM ε σ α) :=
  fun _ => rfl

theorem silent_throw (e : ε) : Silent trace (throw e : EStateM ε σ α) :=
  fun _ => rfl

theorem silent_mapM {xs : List β} {f : β → EStateM ε σ α} (h : ∀ x, Silent trace (f x)) :
    Silent trace (xs.mapM f) := by
  induction xs with
  | nil => exact silent_pure []
  | cons x xs ih =>
    rw [List.mapM_cons]
    exact (h x).bind fun _ => ih.bind fun _ => silent_pure _

theorem Silent.ok (hx : Silent trace x) {s s' : σ} {a : α} (h : x s = .ok a s') : trace s' = trace s := by
  have hfinal := hx s
  rwa [h] at hfinal

theorem Silent.error (hx : Silent trace x) {s s' : σ} {e : ε} (h : x s = .error e s') :
    trace s' = trace s := by
  have hfinal := hx s
  rwa [h] at hfinal

end Run

/-! ## the events of an analysis -/

namespace Event

def isInspection : Event → Bool
  | .inspection _ _ _ => true
  | _ => false

/-- the method that a mutation names -/
def mutated? : Event → Option String
  | .mutation method _ _ => some method
  | _ => none

end Event

namespace Analysis

variable {t : Table} {c : ClassId} {st st' : AnalysisState} {α : Type}

/-- the trace of a state -/
abbrev written (st : AnalysisState) : Trace :=
  st.journal.trace

def Writes (events : List Event) (x : Analyzing Unit) : Prop :=
  ∀ st, ∃ j, x st = .ok () { st with journal := j } ∧
    j.trace = st.journal.trace.recordAll events

theorem writes_debug (message : String) : Writes [] (keep (·.debug message)) :=
  fun st => ⟨st.journal.debug message, rfl, rfl⟩

theorem writes_announce (t : Table) (c : ClassId) (state : String) : Writes [] (announce t c state) :=
  writes_debug _

theorem writes_record (event : Event) : Writes [event] (keep (·.record event)) :=
  fun st => ⟨st.journal.record event, rfl, rfl⟩

theorem Writes.andThen {es fs : List Event} {x y : Analyzing Unit} (hx : Writes es x)
    (hy : Writes fs y) : Writes (es ++ fs) (x >>= fun _ => y) := by
  intro st
  obtain ⟨j, hj, htrace⟩ := hx st
  obtain ⟨k, hk, htrace'⟩ := hy { st with journal := j }
  refine ⟨k, (Run.bind_of_ok hj).trans hk, ?_⟩
  rw [htrace', Trace.recordAll_append, ← htrace]

theorem writes_forM {es : α → List Event} {f : α → Analyzing Unit} (xs : List α)
    (h : ∀ x, Writes (es x) (f x)) : Writes (xs.flatMap es) (xs.forM f) := by
  induction xs with
  | nil => exact fun st => ⟨st.journal, rfl, rfl⟩
  | cons x xs ih => exact (h x).andThen ih

theorem writes_records (xs : List α) (event : α → Event) :
    Writes (xs.map event) (xs.forM fun x => keep (·.record (event x))) := by
  have hwrites := writes_forM xs fun x => writes_record (event x)
  rwa [← List.map_eq_flatMap] at hwrites

theorem writes_logResolution (t : Table) (r : Eligibility.Resolution MethodId) :
    Writes [] (logResolution t r) := by
  have hpass : ∀ p : Nat × List MethodId, Writes ((fun _ => []) p) (keep (·.debug
      s!"Resolver pass {p.1} admitted {Text.quotedList (sortedNames t p.2)}")) :=
    fun _ => writes_debug _
  have hpasses := writes_forM (numbered r.passes) hpass
  rw [List.flatMap_eq_nil_iff.mpr fun _ _ => rfl] at hpasses
  refine hpasses.andThen ?_
  split
  · exact writes_debug _
  · exact fun st => ⟨st.journal, rfl, rfl⟩

theorem Writes.drop {events : List Event} {x : Analyzing Unit} (hx : Writes events x)
    {f : Unit → Analyzing α} {result : EStateM.Result Fault AnalysisState α} (h : (x >>= f) st = result) :
    ∃ j, f () { st with journal := j } = result ∧
      j.trace = st.journal.trace.recordAll events := by
  obtain ⟨j, hj, htrace⟩ := hx st
  exact ⟨j, (Run.bind_of_ok hj).symm.trans h, htrace⟩

theorem silent_classify (t : Table) (m : MethodId) : Run.Silent written (classify t m) := by
  intro st
  rw [classify, Run.bind_of_ok (show (get : Analyzing AnalysisState) st = .ok st st from rfl)]
  cases hverdict : t.classify st.scopes m with
  | error fault => rfl
  | ok found => rfl

/-- the phase that a visit opens -/
def started (t : Table) (c : ClassId) (trace : Trace) : Trace :=
  trace.startPhase s!"Class {t.displayName c}" s!"line {(t.decl c).line}"

/-- the event for the outcome of a candidate -/
def inspected (t : Table) (o : Outcome) : Event :=
  .inspection (t.qualifiedName o.method) o.decision.label (o.decision.reason t)

/-- the event for a pass of the resolver -/
def passed (t : Table) (c : ClassId) (pass : Nat × List MethodId) : Event :=
  .resolverPass (t.displayName c) pass.1 (sortedNames t pass.2)

/-- the first half of a visit; a fault strikes while candidates are classified, when only the phase is recorded -/
theorem enter_records (t : Table) (c : ClassId) (st : AnalysisState) :
    (∃ fault st', enter t c st = .error fault st' ∧ written st' = started t c (written st)) ∨
      ∃ (st' : AnalysisState) (passes : List (Nat × List MethodId)) (outcomes : List Outcome),
        enter t c st = .ok () st' ∧
        st'.analysis.outcomes = st.analysis.outcomes ++ outcomes ∧
        written st' = (started t c (written st)).recordAll
          (passes.map (passed t c) ++ outcomes.map (inspected t)) := by
  generalize h : enter t c st = result
  unfold enter at h
  obtain ⟨j₁, h, hannounced⟩ := (writes_announce t c _).drop h
  rw [Run.bind_of_ok (show keep _ { st with journal := j₁ } = .ok () _ from rfl)] at h
  obtain ⟨j₂, h, hcollecting⟩ := (writes_announce t c _).drop h
  obtain ⟨j, h, hclassifying⟩ := (writes_announce t c _).drop h
  have hstarted : j.trace = started t c (written st) := by
    rw [hclassifying, show j₂.trace = started t c j₁.trace from hcollecting, hannounced]
    rfl
  cases hverdicts : (t.candidates c).mapM (classify t) { st with journal := j } with
  | error fault st₁ =>
    rw [Run.bind_of_error hverdicts] at h
    refine .inl ⟨fault, st₁, h.symm, ?_⟩
    rw [(Run.silent_mapM (silent_classify t)).error hverdicts]
    exact hstarted
  | ok verdicts st₁ =>
    rw [Run.bind_of_ok hverdicts] at h
    have hsilent : written st₁ = j.trace :=
      (Run.silent_mapM (silent_classify t)).ok hverdicts
    have hkept : st₁.analysis = st.analysis := (mapM_classify_ok hverdicts).2
    obtain ⟨j₃, h, hresolving⟩ := (writes_announce t c _).drop h
    rw [Run.bind_of_ok (show (get : Analyzing AnalysisState) { st₁ with journal := j₃ } =
      .ok { st₁ with journal := j₃ } _ from rfl)] at h
    obtain ⟨j₄, h, hlogged⟩ := (writes_logResolution t _).drop h
    obtain ⟨j₅, h, hpasses⟩ := (writes_records _ (passed t c)).drop h
    obtain ⟨j₆, h, hmerging⟩ := (writes_announce t c _).drop h
    obtain ⟨j₇, h, hinspected⟩ := (writes_records _ (inspected t)).drop h
    let resolution := Eligibility.resolve st₁.analysis.eligible (callees verdicts)
    let eligible := merge st₁.analysis.eligible resolution.eligible
    let outcomes : List Outcome :=
      verdicts.map fun v => ⟨v.1, settle t resolution.eligible eligible v.1 v.2⟩
    refine .inr ⟨_, numbered resolution.passes, outcomes, h.symm, ?_, ?_⟩
    · rw [← hkept]
    · rw [← hstarted, ← hsilent, Trace.recordAll_append]
      show j₇.trace = _
      rw [hinspected, hmerging, hpasses, hlogged, hresolving]
      rfl

theorem tracks_enter (t : Table) (c : ClassId) (st : AnalysisState) :
    Trace.Tracks written (started t c (written st)) (enter t c st) := by
  rcases enter_records t c st with ⟨fault, st', henter, htrace⟩ | ⟨st', ps, os, henter, _, htrace⟩
  · rw [henter]
    show Trace.Leaves _ (written st')
    rw [htrace]
    exact .balanced (.refl _)
  · rw [henter]
    show Trace.Balances _ (written st')
    rw [htrace]
    refine Trace.balances_recordAll _ fun e he => ?_
    rcases List.mem_append.mp he with he | he
    · obtain ⟨pass, _, rfl⟩ := List.mem_map.mp he
      rfl
    · obtain ⟨o, _, rfl⟩ := List.mem_map.mp he
      rfl

theorem leave_records (t : Table) (c : ClassId) (st : AnalysisState) :
    ∃ st', leave t c st = .ok () st' ∧ written st' = (written st).endPhase :=
  ⟨_, rfl, rfl⟩

end Analysis

namespace Table

open Analysis

variable {t : Table}

theorem stops_flatMap (t : Table) (classes : List ClassId) (tour : ClassId → List Stop) :
    (classes.flatMap tour).forM t.stopAt = classes.forM fun c => (tour c).forM t.stopAt := by
  induction classes with
  | nil => rfl
  | cons c classes ih =>
    rw [List.flatMap_cons]
    show _ = ((tour c).forM t.stopAt >>= fun _ => classes.forM fun c => (tour c).forM t.stopAt)
    rw [← ih]
    exact List.forM_append

/-- a class is left where it was entered, with the tours of its nested classes in between -/
theorem tracks_tourWithin (t : Table) (depth : Nat) (c : ClassId) (st : AnalysisState) :
    Trace.Tracks written (written st) ((t.tourWithin depth c).forM t.stopAt st) := by
  induction depth generalizing c st with
  | zero => exact Trace.Balances.refl _
  | succ depth ih =>
    let nested := (t.nestedClasses c).flatMap (t.tourWithin depth)
    have hsplit : (t.tourWithin (depth + 1) c).forM t.stopAt =
        ((.enter c :: nested).forM t.stopAt >>= fun _ => [Stop.leave c].forM t.stopAt) :=
      List.forM_append
    rw [hsplit]
    have hnested : ∀ st₁, Trace.Tracks written (written st₁)
        (nested.forM t.stopAt st₁) := by
      rw [stops_flatMap]
      exact Trace.tracks_forM fun k _ => ih k
    have hbefore : Trace.Tracks written (started t c (written st))
        ((.enter c :: nested).forM t.stopAt st) :=
      (tracks_enter t c st).bind fun _ st₁ hentered => hentered.tracks (hnested st₁)
    refine hbefore.inPhase fun _ st₁ hdone => ?_
    obtain ⟨st₂, hleave, htrace⟩ := leave_records t c st₁
    have hlast : [Stop.leave c].forM t.stopAt st₁ = .ok () st₂ := stops_singleton (.leave c) hleave
    rw [hlast]
    show Trace.Balances _ (written st₂)
    rw [htrace]
    exact hdone.endPhase

theorem tracks_analyze (t : Table) (st : AnalysisState) :
    Trace.Tracks written (written st) (t.analyze st) := by
  refine Trace.tracks_forM (fun c _ st₁ => ?_) st
  rw [visitClass_eq]
  exact t.tracks_tourWithin _ c st₁

/-- one event for each outcome so far, in order, and no mutation -/
def Reports (t : Table) (st : AnalysisState) : Prop :=
  (written st).notes.filter (·.isInspection) = st.analysis.outcomes.map (inspected t) ∧
    (written st).notes.filterMap (·.mutated?) = []

theorem Reports.enter {c : ClassId} {st st' : AnalysisState} (h : t.Reports st)
    (henter : Analysis.enter t c st = .ok () st') : t.Reports st' := by
  rcases enter_records t c st with ⟨_, _, hfault, _⟩ | ⟨_, passes, outcomes, hok, houtcomes, htrace⟩
  · rw [hfault] at henter
    cases henter
  rw [hok] at henter
  cases henter
  obtain ⟨hinspections, hmutations⟩ := h
  have hplain : ∀ e ∈ passes.map (passed t c) ++ outcomes.map (inspected t),
      e.isPlain = true ∧ e.mutated? = none := by
    intro e he
    rcases List.mem_append.mp he with he | he
    · obtain ⟨pass, _, rfl⟩ := List.mem_map.mp he
      exact ⟨rfl, rfl⟩
    · obtain ⟨o, _, rfl⟩ := List.mem_map.mp he
      exact ⟨rfl, rfl⟩
  have hpasses : (passes.map (passed t c)).filter (·.isInspection) = [] := by
    rw [List.filter_map]
    exact List.map_eq_nil_iff.mpr (List.filter_eq_nil_iff.mpr fun _ _ => Bool.false_ne_true)
  have hnew : (outcomes.map (inspected t)).filter (·.isInspection) = outcomes.map (inspected t) := by
    refine List.filter_eq_self.mpr fun e he => ?_
    obtain ⟨o, _, rfl⟩ := List.mem_map.mp he
    rfl
  have hnotes := Trace.notes_recordAll (started t c (written st)) fun e he => (hplain e he).1
  rw [started, Trace.notes_startPhase] at hnotes
  refine ⟨?_, ?_⟩
  · rw [htrace, started, hnotes, List.filter_append, List.filter_append, hpasses, hnew,
      hinspections, houtcomes, List.map_append, List.nil_append]
  · rw [htrace, started, hnotes, List.filterMap_append, hmutations, List.nil_append]
    exact List.filterMap_eq_nil_iff.mpr fun e he => (hplain e he).2

theorem Reports.leave {c : ClassId} {st st' : AnalysisState} (h : t.Reports st)
    (hleave : Analysis.leave t c st = .ok () st') : t.Reports st' := by
  obtain ⟨st₁, hrun, htrace⟩ := leave_records t c st
  rw [hrun] at hleave
  cases hleave
  rw [Reports, htrace, Trace.notes_endPhase, (leave_ok hrun).1]
  exact h

theorem Reports.analyze {st st' : AnalysisState} (h : t.Reports st)
    (hanalyzed : t.analyze st = .ok () st') : t.Reports st' := by
  rw [Table.analyze, visits_eq] at hanalyzed
  exact keeps_of_stops (fun _ _ _ hst henter => hst.enter henter)
    (fun _ _ _ hst hleave => hst.leave hleave) h hanalyzed

/-! ## the events of a promotion -/

theorem silent_decodeOrThrow (bytes : List UInt8) : Run.Silent Journal.trace (decodeOrThrow bytes) := by
  unfold decodeOrThrow
  split
  · exact Run.silent_pure _
  · exact Run.silent_throw _

theorem silent_describe (t : Table) (m : MethodId) (s : Splice) :
    Run.Silent Journal.trace (t.describe m s) := by
  unfold describe
  split
  · exact Run.silent_pure _
  · exact (silent_decodeOrThrow _).bind fun _ => (silent_decodeOrThrow _).bind fun _ =>
      Run.silent_pure _

theorem applySplice_records (t : Table) (bytes : List UInt8) (s : Splice × MethodId) (j : Journal) :
    (∃ fault j', t.applySplice bytes s j = .error fault j' ∧ j'.trace = j.trace) ∨
      ∃ out j' before after, t.applySplice bytes s j = .ok out j' ∧
        j'.trace = j.trace.record (.mutation (t.qualifiedName s.2) before after) := by
  cases hdescribed : t.describe s.2 s.1 j with
  | error fault j' =>
    have hsilent := (silent_describe t s.2 s.1).error hdescribed
    exact .inl ⟨fault, j', Run.bind_of_error hdescribed, hsilent⟩
  | ok words j' =>
    have hsilent := (silent_describe t s.2 s.1).ok hdescribed
    refine .inr ⟨_, _, words.1, words.2, Run.bind_of_ok hdescribed, ?_⟩
    rw [← hsilent]
    rfl

theorem tracks_applySplice (t : Table) (bytes : List UInt8) (s : Splice × MethodId) (j : Journal) :
    Trace.Tracks Journal.trace j.trace (t.applySplice bytes s j) := by
  rcases t.applySplice_records bytes s j with ⟨_, j', hrun, htrace⟩ | ⟨_, j', _, _, hrun, htrace⟩
  · rw [hrun]
    show j.trace.Leaves j'.trace
    rw [htrace]
    exact .balanced (.refl _)
  · rw [hrun]
    show j.trace.Balances j'.trace
    rw [htrace]
    exact Trace.balances_record _ rfl

theorem tracks_promote (t : Table) (methods : List MethodId) (j : Journal) :
    Trace.Tracks Journal.trace j.trace (t.promote methods j) := by
  have hsplices : ∀ (splices : List (Splice × MethodId)) (bytes : List UInt8) (j : Journal),
      Trace.Tracks Journal.trace j.trace (splices.foldlM t.applySplice bytes j) := by
    intro splices
    induction splices with
    | nil => exact fun _ j => Trace.Balances.refl j.trace
    | cons s splices ih =>
      intro bytes j
      exact (t.tracks_applySplice bytes s j).bind fun out j₁ hfirst => hfirst.tracks (ih out j₁)
  refine (hsplices _ _ j).bind fun bytes j₁ hspliced => ?_
  have hsilent := silent_decodeOrThrow bytes j₁
  cases hdecoded : decodeOrThrow bytes j₁ with
  | ok text j₂ =>
    rw [hdecoded] at hsilent
    exact hspliced.tracks (hsilent ▸ .refl _)
  | error fault j₂ =>
    rw [hdecoded] at hsilent
    exact hspliced.leaves (hsilent ▸ .balanced (.refl _))

theorem notes_foldlM_applySplice {splices : List (Splice × MethodId)} {bytes out : List UInt8} {j : Journal}
    (h : splices.foldlM t.applySplice bytes j = .ok out j') :
    ∃ events : List Event, j'.trace.notes = j.trace.notes ++ events ∧
      events.filter (·.isInspection) = [] ∧
      events.filterMap (·.mutated?) = splices.map fun s => t.qualifiedName s.2 := by
  induction splices generalizing bytes j with
  | nil =>
    cases h
    exact ⟨[], (List.append_nil _).symm, rfl, rfl⟩
  | cons s splices ih =>
    obtain ⟨_, j₁, hfirst, hothers⟩ := Run.of_bind_ok h
    obtain ⟨events, hnotes, hinspections, hmutations⟩ := ih hothers
    rcases t.applySplice_records bytes s j with ⟨_, _, hfault, _⟩ | ⟨_, _, before, after, hrun, htrace⟩
    · rw [hfault] at hfirst
      cases hfirst
    · rw [hrun] at hfirst
      cases hfirst
      refine ⟨.mutation (t.qualifiedName s.2) before after :: events, ?_, ?_, ?_⟩
      · rw [hnotes, htrace, Trace.notes_record _ rfl, List.append_assoc]
        rfl
      · exact hinspections
      · rw [List.filterMap_cons, List.map_cons, hmutations]
        rfl

theorem notes_promote (hsound : t.Sound) {methods : List MethodId} {j : Journal}
    (hmethods : ∀ m ∈ methods, t.Promotable m) (h : t.promote methods j = .ok code j') :
    ∃ events : List Event, j'.trace.notes = j.trace.notes ++ events ∧
      events.filter (·.isInspection) = [] ∧
      (events.filterMap (·.mutated?)).Perm (methods.map t.qualifiedName) := by
  obtain ⟨bytes, j₁, hspliced, hdecoded⟩ := Run.of_bind_ok h
  obtain ⟨events, hnotes, hinspections, hmutations⟩ := notes_foldlM_applySplice hspliced
  refine ⟨events, ?_, hinspections, ?_⟩
  · rw [(silent_decodeOrThrow bytes).ok hdecoded, hnotes]
  · have hsplices : (t.splices methods).map (·.2) = methods := by
      rw [splices, List.map_filterMap]
      conv_rhs => rw [← List.filterMap_some (l := methods)]
      refine List.filterMap_congr fun m hm => ?_
      obtain ⟨word, _, _, hsplice⟩ := (hmethods m hm).spliceFor hsound
      rw [hsplice]
      rfl
    have hnames : (t.splices methods).map (fun s => t.qualifiedName s.2) =
        methods.map t.qualifiedName := by
      have hmapped := congrArg (List.map t.qualifiedName) hsplices
      rwa [List.map_map] at hmapped
    rw [hmutations, ← hnames]
    exact (Splice.ordered_perm _).map _

end Table

namespace Refactoring

variable {j : Journal} {strict : Bool}

/-! ## the stages -/

theorem tracks_inPhase {α β : Type} {x : Journaled α} {f : α → Journaled β} (name detail : String)
    (hx : ∀ j, Trace.Tracks Journal.trace j.trace (x j))
    (hf : ∀ a j, Trace.Tracks Journal.trace j.trace (f a j)) (j : Journal) :
    Trace.Tracks Journal.trace j.trace
      ((modify (·.startPhase name detail) >>= fun _ => x >>= fun a =>
        modify (·.endPhase) >>= fun _ => f a) j) := by
  have hstart : (modify (·.startPhase name detail) : Journaled PUnit) j =
      .ok () (j.startPhase name detail) := rfl
  rw [Run.bind_of_ok hstart]
  refine (hx (j.startPhase name detail)).inPhase fun a j₁ hinside => ?_
  have hend : (modify (·.endPhase) : Journaled PUnit) j₁ = .ok () j₁.endPhase := rfl
  rw [Run.bind_of_ok hend]
  exact hinside.endPhase.tracks (hf a j₁.endPhase)

theorem tracks_analyzeStage (t : Table) (j : Journal) :
    Trace.Tracks Journal.trace j.trace (analyzeStage t j) := by
  have htracks := t.tracks_analyze { scopes := t.scopes, journal := j }
  unfold analyzeStage
  rw [EStateM.run]
  cases hrun : t.analyze { scopes := t.scopes, journal := j } with
  | ok _ st =>
    rw [hrun] at htracks
    exact htracks
  | error fault st =>
    rw [hrun] at htracks
    exact htracks

theorem tracks_stages (source : SourceUnit) (j : Journal) :
    Trace.Tracks Journal.trace j.trace (stages source j) := by
  let started := j.startPhase "Indexing" "Classes, members and scopes"
  have hstart : (modify (·.startPhase "Indexing" "Classes, members and scopes") : Journaled PUnit) j =
      .ok () started := rfl
  unfold stages
  rw [Run.bind_of_ok hstart]
  cases Table.ofSource source with
  | error fault => exact .opened (.refl _) (.balanced (.refl _))
  | ok table =>
    have hindexed : j.trace.Balances started.endPhase.trace := (Trace.Balances.refl _).endPhase
    refine hindexed.tracks (tracks_inPhase _ _ (tracks_analyzeStage table) (fun analysis j₁ => ?_)
      started.endPhase)
    refine tracks_inPhase _ _ (table.tracks_promote analysis.promoted) (fun code j₂ => ?_) j₁
    exact Trace.Balances.refl _

theorem reports_of_analyzeStage {t : Table} {analysis : Analysis} (hempty : j.trace.notes = [])
    (h : analyzeStage t j = .ok analysis j') :
    j'.trace.notes.filter (·.isInspection) = analysis.outcomes.map (Analysis.inspected t) ∧
      j'.trace.notes.filterMap (·.mutated?) = [] := by
  obtain ⟨st, hrun, rfl, rfl⟩ := analyzeStage_ok h
  have hstart : t.Reports { scopes := t.scopes, journal := j } := by
    rw [Table.Reports, Analysis.written, hempty]
    exact ⟨rfl, rfl⟩
  exact hstart.analyze hrun

theorem notes_stages {source : SourceUnit} {done : Stages} (hempty : j.trace.notes = [])
    (h : stages source j = .ok done j') :
    j'.trace.notes.filter (·.isInspection) = done.analysis.outcomes.map (Analysis.inspected done.table) ∧
      (j'.trace.notes.filterMap (·.mutated?)).Perm
        (done.analysis.promoted.map done.table.qualifiedName) := by
  have hpromotable := promotable_of_stages h
  have hbuilt := (stages_ok h).1
  obtain ⟨analysis, table, code⟩ := done
  obtain ⟨_, _, hstart, h⟩ := Run.of_bind_ok h
  cases hstart
  rw [hbuilt] at h
  obtain ⟨_, _, hpure, h⟩ := Run.of_bind_ok h
  cases hpure
  obtain ⟨_, _, hend, h⟩ := Run.of_bind_ok h
  cases hend
  obtain ⟨_, _, hstart, h⟩ := Run.of_bind_ok h
  cases hstart
  obtain ⟨_, j₁, hanalyzed, h⟩ := Run.of_bind_ok h
  have hindexed : ((j.trace.startPhase "Indexing" "Classes, members and scopes").endPhase.startPhase
      "Analysis" s!"{table.classes.size} class scope(s)").notes = [] := by
    simp only [Trace.notes_startPhase, Trace.notes_endPhase, hempty]
  obtain ⟨hinspections, hmutations⟩ := reports_of_analyzeStage hindexed hanalyzed
  obtain ⟨_, _, hend, h⟩ := Run.of_bind_ok h
  cases hend
  obtain ⟨_, _, hstart, h⟩ := Run.of_bind_ok h
  cases hstart
  obtain ⟨_, j₂, hpromoted, h⟩ := Run.of_bind_ok h
  cases h
  obtain ⟨events, hnotes, hnone, hperm⟩ :=
    Table.notes_promote (Table.sound_of_ofSource hbuilt) hpromotable hpromoted
  have hbefore : (j₁.endPhase.startPhase "Rewriting"
      s!"{analysis.promoted.length} method(s)").trace.notes = j₁.trace.notes := by
    show (j₁.trace.endPhase.startPhase _ _).notes = _
    simp only [Trace.notes_startPhase, Trace.notes_endPhase]
  rw [hbefore] at hnotes
  show j₂.trace.endPhase.notes.filter _ = _ ∧ (j₂.trace.endPhase.notes.filterMap _).Perm _
  rw [Trace.notes_endPhase, hnotes, List.filter_append, List.filterMap_append, hinspections,
    hmutations, hnone, List.append_nil, List.nil_append]
  exact ⟨rfl, hperm⟩

/-! ## the trace of a run -/

/-- the trace when the first phase has started -/
def pipeline (strict : Bool) : Trace :=
  ({} : Trace).startPhase "Staticizer Pipeline" s!"strict={shownBool strict}"

/-- a trace that consists of one phase, the first, and of what nests inside it -/
def OnePhase (strict : Bool) (trace : Trace) : Prop :=
  ∃ inside, trace.entries.toList =
      ⟨.phaseStart "Staticizer Pipeline" s!"strict={shownBool strict}", none⟩ :: inside ++
        [⟨.phaseEnd, some 0⟩] ∧
    Trace.Nested (some 0) 1 inside

theorem onePhase_endPhase {trace : Trace}
    (h : (pipeline strict).Balances trace) : OnePhase strict trace.endPhase := by
  obtain ⟨hopen, inside, hentries, hnested⟩ := h
  refine ⟨inside, ?_, hnested⟩
  have hopened : trace.openPhases = [0] := hopen
  have hended : trace.endPhase.entries = trace.entries.push ⟨.phaseEnd, some 0⟩ := by
    rw [Trace.endPhase, hopened]
    rfl
  rw [hended, Array.toList_push, hentries]
  rfl

/-- however many phases are open, closing them all ends the first one last -/
theorem onePhase_closePhases {trace : Trace}
    (h : (pipeline strict).Leaves trace) : OnePhase strict trace.closePhases := by
  obtain ⟨closed, hbalanced, hclosed⟩ := h.closed
  have hopened : closed.openPhases = [0] := hbalanced.openPhases
  have hlast : closed.closePhases = closed.endPhase := by
    rw [Trace.closePhases, hopened]
    rfl
  rw [hclosed, hlast]
  exact onePhase_endPhase hbalanced

theorem onePhase_failure (h : (pipeline strict).Leaves j.trace)
    (code message : String) : OnePhase strict (failure strict code message j).1.trace := by
  have hplain : (Event.warning message).isPlain = true := rfl
  have hwarned := h.balances (Trace.balances_record j.trace hplain)
  cases strict with
  | false => exact onePhase_closePhases hwarned
  | true => exact onePhase_closePhases hwarned

/-- a run fails with some phases open, or comes through all stages -/
theorem run_ends {tree : ParseTree} {r : RunResult} (h : run strict code tree = .ok (r, j)) :
    (∃ message before, (pipeline strict).Leaves before.trace ∧
        r = (failure strict code message before).1) ∨
      ∃ done after, stages (.ofText code tree) (opening strict).endPhase = .ok done after ∧
        (pipeline strict).Balances after.trace ∧ r = (success done after).1 := by
  rcases run_spec h with ⟨message, hr⟩ | ⟨-, hstages⟩
  · -- the phase of parsing is still open
    exact .inl ⟨message, opening strict, .opened (.refl _) (.balanced (.refl _)), hr⟩
  · have hparsed : (pipeline strict).Balances (opening strict).endPhase.trace :=
      (Trace.Balances.refl _).endPhase
    have htracks := hparsed.tracks (tracks_stages (.ofText code tree) (opening strict).endPhase)
    rcases hstages with ⟨message, _, after, hstages, hr⟩ | ⟨done, after, hstages, hr⟩
    · rw [hstages] at htracks
      exact .inl ⟨message, after.debug "Internal error", htracks, hr⟩
    · rw [hstages] at htracks
      exact .inr ⟨done, after, hstages, htracks, hr⟩

theorem onePhase_run {tree : ParseTree} {r : RunResult} (h : run strict code tree = .ok (r, j)) :
    OnePhase strict r.trace := by
  rcases run_ends h with ⟨message, before, hleaves, rfl⟩ | ⟨done, after, _, hbalanced, rfl⟩
  · exact onePhase_failure hleaves code message
  · exact onePhase_endPhase hbalanced

/-- The trace of a run is one phase with all other entries nested inside, on whatever path the run came to its end. Without
errors it holds one inspection for each outcome, in order, and one mutation for each promoted method. -/
theorem run_records_one_phase {strict : Bool} {code : String} {tree : ParseTree} {r : RunResult}
    {j : Journal} (h : run strict code tree = .ok (r, j)) :
    OnePhase strict r.trace ∧
      (∀ e ∈ r.trace.entries.toList.tail, e.parent.isSome = true) ∧
      (r.errors = [] → ∃ (t : Table) (st : AnalysisState) (j₀ : Journal),
        Table.ofSource (.ofText code tree) = .ok t ∧
        t.analyze { scopes := t.scopes, journal := j₀ } = .ok () st ∧
        r.promoted = st.analysis.promoted.map (fun m =>
          ⟨t.displayName m.owner, (t.method m).name, (t.method m).line⟩) ∧
        r.retained = st.analysis.retained.map (fun o =>
          ⟨t.displayName o.method.owner, (t.method o.method).name, (t.method o.method).line,
            o.decision.reason t⟩) ∧
        r.trace.notes.filter (·.isInspection) = st.analysis.outcomes.map (fun o =>
          .inspection (t.qualifiedName o.method) o.decision.label (o.decision.reason t)) ∧
        (r.trace.notes.filterMap (·.mutated?)).Perm
          (st.analysis.promoted.map t.qualifiedName)) := by
  have hone := onePhase_run h
  refine ⟨hone, ?_, fun herrors => ?_⟩
  · obtain ⟨inside, hentries, hnested⟩ := hone
    intro e he
    rw [hentries, List.cons_append, List.tail_cons] at he
    rcases List.mem_append.mp he with he | he
    · exact hnested.isSome_parent rfl e he
    · rw [List.mem_singleton.mp he]
      rfl
  · rcases run_ends h with ⟨message, before, _, rfl⟩ | ⟨done, after, hstages, _, rfl⟩
    · exact absurd herrors (failure_result strict code message before).1
    · obtain ⟨hinspections, hmutations⟩ := notes_stages rfl hstages
      obtain ⟨hbuilt, ⟨j₁, st, hanalyzed, hanalysis⟩, _⟩ := stages_ok hstages
      have hnotes : (success done after).1.trace.notes = after.trace.notes :=
        Trace.notes_endPhase after.trace
      rw [← hnotes, hanalysis] at hinspections hmutations
      exact ⟨done.table, st, j₁, hbuilt, hanalyzed, hanalysis ▸ rfl, hanalysis ▸ rfl,
        hinspections, hmutations⟩

/-- two methods are inspected and promoted -/
theorem accented_records_one_phase :
    ∃ r j, run true accentedText accentedTree = .ok (r, j) ∧ r.errors = [] ∧
      OnePhase true r.trace ∧ (r.trace.notes.filterMap (·.mutated?)).length = 2 := by
  have hevaluated : ((run true accentedText accentedTree).toOption.any fun done =>
      done.1.errors == [] && done.1.promoted.length == 2) = true := by
    -- a merge sort does not evaluate, an insertion sort does
    simp only [run, stages, Table.promote, Splice.ordered_eq]
    decide +kernel
  obtain ⟨⟨r, j⟩, hrun, hresult⟩ := Run.of_toOption_any hevaluated
  simp only [Bool.and_eq_true, beq_iff_eq] at hresult
  obtain ⟨herrors, hpromoted⟩ := hresult
  obtain ⟨hone, _, hevents⟩ := run_records_one_phase hrun
  obtain ⟨t, st, _, _, _, hmethods, _, _, hmutations⟩ := hevents herrors
  refine ⟨r, j, hrun, herrors, hone, ?_⟩
  rw [hmutations.length_eq, List.length_map, ← hpromoted, hmethods, List.length_map]

end Refactoring

end StaticPromotion
