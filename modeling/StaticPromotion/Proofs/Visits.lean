import StaticPromotion.Analysis
import StaticPromotion.Proofs.Runs

/-!
# What a visit of a class does

A visit is a long row of steps, and most of them only write to the journal. What is left is said once here.

* `Table.Promotable`              a candidate, spelled out;
* `Table.Classified s ms vs s'`   the methods `ms` are classified one after the other, from the scopes `s` to `s'`, with the
                                  verdicts `vs`;
* `Analysis.settled t a c vs`     the analysis `a` after the candidates of `c` were given the verdicts `vs`;
* `Analysis.enter_ok`             the first half of a visit is a classification followed by `settled`;
* `Analysis.leave_ok`             the second half changes the journal alone;
* `Table.stopAt`                  one stop of a tour, and `Table.visits_eq` a row of visits as the stops that it makes.
-/

namespace StaticPromotion

variable {s' : Scopes}

open Eligibility

namespace Table

/-! ## candidates -/

structure Promotable (t : Table) (m : MethodId) : Prop where
  declared : (t.method m).node.isSome
  unskipped : t.skipReason m = none
  notConstructor : (t.method m).isConstructor = false
  notStatic : (t.method m).isStatic = false
  nonOverridable : (t.method m).isNonOverridable = true
  hasBody : (t.method m).body.isSome
  notHook : t.isSerializationHook m = false

theorem promotable_of_mem_candidates {t : Table} {c : ClassId} {m : MethodId}
    (h : m ∈ t.candidates c) : t.Promotable m := by
  have hchosen := (List.mem_filter.mp h).2
  rw [Bool.and_eq_true] at hchosen
  obtain ⟨hnode, hskip⟩ := hchosen
  have hnone : t.skipReason m = none := Option.isNone_iff_eq_none.mp hskip
  have hgrounds := hnone
  simp only [skipReason, Bool.not_eq_true'] at hgrounds
  -- each ground is tried after the ones before it failed
  split at hgrounds
  · cases hgrounds
  rename_i hconstructor
  split at hgrounds
  · cases hgrounds
  rename_i hstatic
  split at hgrounds
  · cases hgrounds
  rename_i hoverridable
  split at hgrounds
  · cases hgrounds
  rename_i hbody
  split at hgrounds
  · cases hgrounds
  rename_i hhook
  exact ⟨hnode, hnone, Bool.eq_false_iff.mpr hconstructor, Bool.eq_false_iff.mpr hstatic,
    by simpa using hoverridable, Option.isSome_iff_ne_none.mpr (by simpa using hbody),
    Bool.eq_false_iff.mpr hhook⟩

end Table

/-! ## classification of several methods -/

inductive Table.Classified (t : Table) :
    Scopes → List MethodId → List (MethodId × Verdict) → Scopes → Prop
  | nil (s : Scopes) : Classified t s [] [] s
  | cons {s s₁ s' : Scopes} {m : MethodId} {v : Verdict} {ms : List MethodId}
      {vs : List (MethodId × Verdict)} (first : t.classify s m = .ok (v, s₁))
      (others : Classified t s₁ ms vs s') : Classified t s (m :: ms) ((m, v) :: vs) s'

theorem Table.Classified.methods {t : Table} {s : Scopes} {ms : List MethodId}
    {vs : List (MethodId × Verdict)} (h : t.Classified s ms vs s') : vs.map (·.1) = ms := by
  induction h with
  | nil => rfl
  | cons _ _ ih => rw [List.map_cons, ih]

theorem Table.Classified.unique {t : Table} {s s₁ s₂ : Scopes} {ms : List MethodId}
    {vs₁ vs₂ : List (MethodId × Verdict)} (h₁ : t.Classified s ms vs₁ s₁)
    (h₂ : t.Classified s ms vs₂ s₂) : vs₁ = vs₂ ∧ s₁ = s₂ := by
  induction h₁ generalizing vs₂ with
  | nil s =>
    cases h₂
    exact ⟨rfl, rfl⟩
  | cons first _ ih =>
    cases h₂ with
    | cons first' others' =>
      rw [first] at first'
      cases first'
      obtain ⟨rfl, hscopes⟩ := ih others'
      exact ⟨rfl, hscopes⟩

/-! ## steps that only write to the journal -/

namespace Analysis

variable {x : Analyzing Unit} {α : Type} {st st' : AnalysisState} {t : Table} {vs : List (MethodId × Verdict)}
  {c : ClassId}

def OnlyLogs (x : Analyzing Unit) : Prop :=
  ∀ st, ∃ j, x st = .ok () { st with journal := j }

theorem onlyLogs_keep (change : Journal → Journal) : OnlyLogs (keep change) :=
  fun st => ⟨change st.journal, rfl⟩

theorem onlyLogs_announce (t : Table) (c : ClassId) (state : String) : OnlyLogs (announce t c state) :=
  onlyLogs_keep _

theorem OnlyLogs.andThen {y : Analyzing Unit} (hx : OnlyLogs x) (hy : OnlyLogs y) :
    OnlyLogs (x >>= fun _ => y) := by
  intro st
  obtain ⟨j, hj⟩ := hx st
  rw [Run.bind_of_ok hj]
  obtain ⟨k, hk⟩ := hy { st with journal := j }
  exact ⟨k, hk⟩

theorem onlyLogs_forM (xs : List α) (f : α → Analyzing Unit)
    (h : ∀ x ∈ xs, OnlyLogs (f x)) : OnlyLogs (xs.forM f) := by
  induction xs with
  | nil => exact fun st => ⟨st.journal, rfl⟩
  | cons x xs ih =>
    show OnlyLogs (f x >>= fun _ => xs.forM f)
    exact (h x List.mem_cons_self).andThen (ih fun y hy => h y (List.mem_cons_of_mem _ hy))

theorem onlyLogs_logResolution (t : Table) (r : Resolution MethodId) : OnlyLogs (logResolution t r) := by
  refine (onlyLogs_forM _ _ fun _ _ => onlyLogs_keep _).andThen ?_
  split
  · exact onlyLogs_keep _
  · exact fun st => ⟨st.journal, rfl⟩

theorem OnlyLogs.drop (hx : OnlyLogs x) {f : Unit → Analyzing α} {a : α} (h : (x >>= f) st = .ok a st') :
    ∃ j, f () { st with journal := j } = .ok a st' := by
  obtain ⟨j, hj⟩ := hx st
  rw [Run.bind_of_ok hj] at h
  exact ⟨j, h⟩

/-! ## the two halves of a visit -/

theorem classify_ok {m : MethodId} {v : MethodId × Verdict} (h : classify t m st = .ok v st') :
    v.1 = m ∧ t.classify st.scopes m = .ok (v.2, st'.scopes) ∧ st'.analysis = st.analysis := by
  unfold classify at h
  obtain ⟨_, _, hget, h⟩ := Run.of_bind_ok h
  cases hget
  cases hv : t.classify st.scopes m with
  | error fault =>
    rw [hv] at h
    cases h
  | ok found =>
    rw [hv] at h
    cases h
    exact ⟨rfl, rfl, rfl⟩

theorem mapM_classify_ok {ms : List MethodId} (h : ms.mapM (classify t) st = .ok vs st') :
    t.Classified st.scopes ms vs st'.scopes ∧ st'.analysis = st.analysis := by
  induction ms generalizing st vs with
  | nil =>
    cases h
    exact ⟨.nil _, rfl⟩
  | cons m ms ih =>
    rw [List.mapM_cons] at h
    obtain ⟨⟨_, v⟩, st₁, hfirst, h⟩ := Run.of_bind_ok h
    obtain ⟨vs₁, st₂, hothers, h⟩ := Run.of_bind_ok h
    cases h
    obtain ⟨rfl, hv, ha⟩ := classify_ok hfirst
    obtain ⟨hvs, ha'⟩ := ih hothers
    exact ⟨.cons hv hvs, ha'.trans ha⟩

def settled (t : Table) (a : Analysis) (c : ClassId) (verdicts : List (MethodId × Verdict)) :
    Analysis :=
  let admitted := (resolve a.eligible (callees verdicts)).eligible
  let eligible := merge a.eligible admitted
  { eligible
    outcomes := a.outcomes ++ verdicts.map fun v => ⟨v.1, settle t admitted eligible v.1 v.2⟩
    visited := a.visited ++ [c] }

theorem enter_ok (h : enter t c st = .ok () st') :
    ∃ verdicts, t.Classified st.scopes (t.candidates c) verdicts st'.scopes ∧
      st'.analysis = settled t st.analysis c verdicts := by
  unfold enter at h
  obtain ⟨_, h⟩ := (onlyLogs_announce t c _).drop h
  obtain ⟨_, h⟩ := (onlyLogs_keep _).drop h
  obtain ⟨_, h⟩ := (onlyLogs_announce t c _).drop h
  obtain ⟨_, h⟩ := (onlyLogs_announce t c _).drop h
  obtain ⟨verdicts, st₁, hmap, h⟩ := Run.of_bind_ok h
  obtain ⟨hclassified, hanalysis⟩ := mapM_classify_ok hmap
  obtain ⟨_, h⟩ := (onlyLogs_announce t c _).drop h
  obtain ⟨_, _, hget, h⟩ := Run.of_bind_ok h
  cases hget
  obtain ⟨_, h⟩ := (onlyLogs_logResolution t _).drop h
  obtain ⟨_, h⟩ := (onlyLogs_forM _ _ fun _ _ => onlyLogs_keep _).drop h
  obtain ⟨_, h⟩ := (onlyLogs_announce t c _).drop h
  obtain ⟨_, h⟩ := (onlyLogs_forM _ _ fun _ _ => onlyLogs_keep _).drop h
  obtain ⟨_, _, hmodify, h⟩ := Run.of_bind_ok h
  cases hmodify
  cases h
  refine ⟨verdicts, hclassified, ?_⟩
  rw [← show st₁.analysis = st.analysis from hanalysis]
  rfl

theorem leave_ok (h : leave t c st = .ok () st') : st'.analysis = st.analysis ∧ st'.scopes = st.scopes := by
  unfold leave at h
  obtain ⟨_, h⟩ := (onlyLogs_announce t c _).drop h
  cases h
  exact ⟨rfl, rfl⟩

/-! ## what a visit needs -/

def Returns {α : Type} (x : Analyzing α) (st : AnalysisState) : Prop :=
  ∃ a st', x st = .ok a st'

theorem returns_bind {β : Type} {x : Analyzing α} {f : α → Analyzing β} {st₁ : AnalysisState}
    {a : α} (hx : x st = .ok a st₁) (h : Returns (f a) st₁) : Returns (x >>= f) st := by
  obtain ⟨b, st', hb⟩ := h
  exact ⟨b, st', (Run.bind_of_ok hx).trans hb⟩

theorem returns_get {f : AnalysisState → Analyzing α} (h : Returns (f st) st) : Returns (get >>= f) st :=
  returns_bind (show (get : Analyzing AnalysisState) st = .ok st st from rfl) h

theorem OnlyLogs.returns (hx : OnlyLogs x) {f : Unit → Analyzing α}
    (h : ∀ j, Returns (f ()) { st with journal := j }) : Returns (x >>= f) st := by
  obtain ⟨j, hj⟩ := hx st
  exact returns_bind hj (h j)

theorem mapM_classify_of_classified {s : Scopes} {ms : List MethodId} (h : t.Classified s ms vs s')
    (a : Analysis) (j : Journal) : ∃ j', ms.mapM (classify t) ⟨a, s, j⟩ = .ok vs ⟨a, s', j'⟩ := by
  induction h generalizing j with
  | nil s => exact ⟨j, by rw [List.mapM_nil]; rfl⟩
  | @cons s s₁ _ m v _ _ first _ ih =>
    have hfirst : ∃ j₁, classify t m ⟨a, s, j⟩ = .ok (m, v) ⟨a, s₁, j₁⟩ := by
      refine ⟨j.debug (verdictLine t m v), ?_⟩
      have hget : (get : Analyzing AnalysisState) ⟨a, s, j⟩ = .ok ⟨a, s, j⟩ ⟨a, s, j⟩ := rfl
      rw [classify, Run.bind_of_ok hget]
      simp only [first]
      rfl
    obtain ⟨j₁, hfirst⟩ := hfirst
    obtain ⟨j', hothers⟩ := ih j₁
    exact ⟨j', by rw [List.mapM_cons, Run.bind_of_ok hfirst, Run.bind_of_ok hothers]; rfl⟩

theorem enter_returns (h : t.Classified st.scopes (t.candidates c) vs s') : Returns (enter t c) st := by
  refine (onlyLogs_announce t c _).returns fun _ => ?_
  refine (onlyLogs_keep _).returns fun _ => ?_
  refine (onlyLogs_announce t c _).returns fun _ => ?_
  refine (onlyLogs_announce t c _).returns fun j => ?_
  obtain ⟨_, hmap⟩ := mapM_classify_of_classified h st.analysis j
  refine returns_bind hmap ?_
  refine (onlyLogs_announce t c _).returns fun _ => ?_
  refine returns_get ?_
  refine (onlyLogs_logResolution t _).returns fun _ => ?_
  refine (onlyLogs_forM _ _ fun _ _ => onlyLogs_keep _).returns fun _ => ?_
  refine (onlyLogs_announce t c _).returns fun _ => ?_
  refine (onlyLogs_forM _ _ fun _ _ => onlyLogs_keep _).returns fun _ => ?_
  exact ⟨_, _, rfl⟩

theorem leave_returns (t : Table) (c : ClassId) (st : AnalysisState) : Returns (leave t c) st :=
  ⟨_, _, rfl⟩

end Analysis

/-! ## tours as rows of stops -/

namespace Table

variable {t : Table} {st st' : AnalysisState} {s : Scopes} {ms : List MethodId}

def stopAt (t : Table) : Stop → Analyzing Unit
  | .enter c => Analysis.enter t c
  | .leave c => Analysis.leave t c

theorem visitClass_eq (t : Table) (c : ClassId) : t.visitClass c = (t.tour c).forM t.stopAt := by
  unfold visitClass
  congr 1

theorem visits_eq (t : Table) (visits : List ClassId) :
    visits.forM t.visitClass = (visits.flatMap t.tour).forM t.stopAt := by
  induction visits with
  | nil => rfl
  | cons c visits ih =>
    rw [List.flatMap_cons]
    show (t.visitClass c >>= fun _ => visits.forM t.visitClass) = _
    rw [ih, visitClass_eq]
    exact List.forM_append.symm

/-- a state that a row of visits comes through, at its end or at a stop on the way -/
def Passes (t : Table) (visits : List ClassId) (st : AnalysisState) : Prop :=
  ∃ stops j, stops <+: visits.flatMap t.tour ∧
    stops.forM t.stopAt { scopes := t.scopes, journal := j } = .ok () st

theorem passes_of_visits {visits : List ClassId} {j : Journal}
    (h : visits.forM t.visitClass { scopes := t.scopes, journal := j } = .ok () st) :
    t.Passes visits st := by
  rw [visits_eq] at h
  exact ⟨_, j, List.prefix_rfl, h⟩

/-- the scopes that classifications leave behind, one after the other -/
inductive ScopesReached (t : Table) : Scopes → Prop
  | start : ScopesReached t t.scopes
  | next {s s' : Scopes} {m : MethodId} {v : Verdict} (before : ScopesReached t s)
      (verdict : t.classify s m = .ok (v, s')) : ScopesReached t s'

theorem Classified.reached {vs : List (MethodId × Verdict)} (h : t.Classified s ms vs s')
    (hs : t.ScopesReached s) : t.ScopesReached s' := by
  induction h with
  | nil => exact hs
  | cons first _ ih => exact ih (hs.next first)

theorem Classified.verdict {vs : List (MethodId × Verdict)} (h : t.Classified s ms vs s')
    (hs : t.ScopesReached s) {v : MethodId × Verdict} (hv : v ∈ vs) :
    ∃ s₁ s₂, t.ScopesReached s₁ ∧ t.classify s₁ v.1 = .ok (v.2, s₂) := by
  induction h with
  | nil => cases hv
  | cons first _ ih =>
    rcases List.mem_cons.mp hv with rfl | hv
    · exact ⟨_, _, hs, first⟩
    · exact ih (hs.next first) hv

/-- what every stop keeps, a row of stops keeps -/
theorem keeps_of_stops {stops : List Stop} {P : AnalysisState → Prop}
    (enter : ∀ c st st', P st → Analysis.enter t c st = .ok () st' → P st')
    (leave : ∀ c st st', P st → Analysis.leave t c st = .ok () st' → P st') (hst : P st)
    (h : stops.forM t.stopAt st = .ok () st') : P st' := by
  induction stops generalizing st with
  | nil =>
    cases h
    exact hst
  | cons stop stops ih =>
    obtain ⟨_, st₁, hstop, hothers⟩ := Run.of_bind_ok h
    cases stop with
    | enter c => exact ih (enter c st st₁ hst hstop) hothers
    | leave c => exact ih (leave c st st₁ hst hstop) hothers

/-- so what every stop keeps, every row of visits keeps -/
theorem Passes.induction {P : AnalysisState → Prop} (start : ∀ j, P { scopes := t.scopes, journal := j })
    (enter : ∀ c st st', P st → Analysis.enter t c st = .ok () st' → P st')
    (leave : ∀ c st st', P st → Analysis.leave t c st = .ok () st' → P st')
    {visits : List ClassId} (h : t.Passes visits st) : P st := by
  obtain ⟨stops, j, _, h⟩ := h
  exact keeps_of_stops enter leave (start j) h

theorem ScopesReached.stops {stops : List Stop} (hst : t.ScopesReached st.scopes)
    (h : stops.forM t.stopAt st = .ok () st') : t.ScopesReached st'.scopes := by
  refine keeps_of_stops (P := fun st => t.ScopesReached st.scopes) ?_ ?_ hst h
  · intro c st st' hst henter
    obtain ⟨_, hclassified, _⟩ := Analysis.enter_ok henter
    exact hclassified.reached hst
  · intro c st st' hst hleave
    rw [(Analysis.leave_ok hleave).2]
    exact hst

/-! ## visits that come to an end -/

theorem stops_singleton (stop : Stop) (h : t.stopAt stop st = .ok () st') :
    [stop].forM t.stopAt st = .ok () st' :=
  Run.bind_of_ok h

/-- whatever was inspected before, the method gets a verdict -/
def Classifiable (t : Table) (m : MethodId) : Prop :=
  ∀ s, t.ScopesReached s → ∃ found, t.classify s m = .ok found

theorem exists_classified (hs : t.ScopesReached s)
    (hms : ∀ m ∈ ms, t.Classifiable m) : ∃ vs s', t.Classified s ms vs s' := by
  induction ms generalizing s with
  | nil => exact ⟨[], s, .nil s⟩
  | cons m ms ih =>
    obtain ⟨hm, hms⟩ := List.forall_mem_cons.mp hms
    obtain ⟨⟨v, s₁⟩, hfirst⟩ := hm s hs
    obtain ⟨vs, s', hothers⟩ := ih (hs.next hfirst) hms
    exact ⟨_, s', .cons hfirst hothers⟩

theorem stops_return (h : ∀ c, ∀ m ∈ t.candidates c, t.Classifiable m)
    (stops : List Stop) (hs : t.ScopesReached st.scopes) : ∃ st', stops.forM t.stopAt st = .ok () st' := by
  induction stops generalizing st with
  | nil => exact ⟨st, rfl⟩
  | cons stop stops ih =>
    have hfirst : Analysis.Returns (t.stopAt stop) st := by
      cases stop with
      | enter c =>
        obtain ⟨vs, s', hclassified⟩ := exists_classified hs (h c)
        exact Analysis.enter_returns hclassified
      | leave c => exact Analysis.leave_returns t c st
    obtain ⟨_, st₁, hstop⟩ := hfirst
    obtain ⟨st', hothers⟩ := ih (hs.stops (stops_singleton stop hstop))
    exact ⟨st', (Run.bind_of_ok hstop).trans hothers⟩

/-- what visits find does not depend on the journal -/
theorem stops_congr {stops : List Stop} {st₁ : AnalysisState} (h : stops.forM t.stopAt st = .ok () st')
    (hscopes : st₁.scopes = st.scopes) (hanalysis : st₁.analysis = st.analysis) :
    ∃ st₁', stops.forM t.stopAt st₁ = .ok () st₁' ∧ st₁'.analysis = st'.analysis := by
  induction stops generalizing st st₁ with
  | nil =>
    cases h
    exact ⟨st₁, rfl, hanalysis⟩
  | cons stop stops ih =>
    obtain ⟨_, st₂, hstop, hothers⟩ := Run.of_bind_ok h
    cases stop with
    | enter c =>
      obtain ⟨vs, hclassified, hsettled⟩ := Analysis.enter_ok hstop
      rw [← hscopes] at hclassified
      obtain ⟨_, st₃, henter⟩ := Analysis.enter_returns hclassified
      obtain ⟨vs', hclassified', hsettled'⟩ := Analysis.enter_ok henter
      obtain ⟨rfl, hsame⟩ := hclassified.unique hclassified'
      rw [hanalysis, ← hsettled] at hsettled'
      obtain ⟨st₁', hrest, hfound⟩ := ih hothers hsame.symm hsettled'
      exact ⟨st₁', (Run.bind_of_ok (show t.stopAt (.enter c) st₁ = _ from henter)).trans hrest, hfound⟩
    | leave c =>
      obtain ⟨hleft, hkept⟩ := Analysis.leave_ok hstop
      obtain ⟨_, st₃, hleave⟩ := Analysis.leave_returns t c st₁
      obtain ⟨hleft', hkept'⟩ := Analysis.leave_ok hleave
      obtain ⟨st₁', hrest, hfound⟩ := ih hothers (by rw [hkept', hkept, hscopes])
        (by rw [hleft', hleft, hanalysis])
      exact ⟨st₁', (Run.bind_of_ok (show t.stopAt (.leave c) st₁ = _ from hleave)).trans hrest, hfound⟩

theorem analyze_congr {j : Journal}
    (h : t.analyze { scopes := t.scopes, journal := j } = .ok () st) (j' : Journal) :
    ∃ st', t.analyze { scopes := t.scopes, journal := j' } = .ok () st' ∧ st'.analysis = st.analysis := by
  rw [analyze, visits_eq] at h ⊢
  exact stops_congr h rfl rfl

end Table

end StaticPromotion
