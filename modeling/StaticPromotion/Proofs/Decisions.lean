import StaticPromotion.Proofs.Confluence
import StaticPromotion.Proofs.Inspection

/-!
# Every class is visited once and every candidate decided once

A row of stops visits the classes it enters, in that order, and adds one outcome for each of their candidates. The tours of
the top-level classes enter every class of the table in order, so the analysis of a unit decides all candidates, in the
order in which they were collected. Nothing but the classification of a candidate can keep it from its end, and only a text
that cannot be read, or two declarations with one key, that classification.

* `Table.decided_of_stops`   what a row of stops visits and decides, by induction on the stops;
* `Table.nodup_allCandidates`   no method is a candidate twice;
* `Table.error_of_stops`     a row of stops that fails does so with the fault of a classification;
* `Analysis.perm_outcomes`   what is promoted and what is retained, taken together.
-/

namespace StaticPromotion

/-! ## faults -/

namespace Analysis

variable {t : Table} {c : ClassId} {st st' : AnalysisState} {fault : Fault}

theorem OnlyLogs.drop_error {α : Type} {x : Analyzing Unit} (hx : OnlyLogs x) {f : Unit → Analyzing α}
    (h : (x >>= f) st = .error fault st') : ∃ j, f () { st with journal := j } = .error fault st' := by
  obtain ⟨j, hj⟩ := hx st
  rw [Run.bind_of_ok hj] at h
  exact ⟨j, h⟩

theorem OnlyLogs.no_error {x : Analyzing Unit} (hx : OnlyLogs x) : x st ≠ .error fault st' := by
  obtain ⟨j, hj⟩ := hx st
  rw [hj]
  exact fun h => by cases h

theorem classify_error {m : MethodId} (h : classify t m st = .error fault st') :
    t.classify st.scopes m = .error fault := by
  rw [classify, Run.get_bind] at h
  cases hv : t.classify st.scopes m with
  | error fault' =>
    rw [hv] at h
    cases h
    rfl
  | ok found =>
    rw [hv] at h
    cases h

theorem mapM_classify_error {ms : List MethodId} (hs : t.ScopesReached st.scopes)
    (h : ms.mapM (classify t) st = .error fault st') :
    ∃ m ∈ ms, ∃ s, t.ScopesReached s ∧ t.classify s m = .error fault := by
  induction ms generalizing st with
  | nil => cases h
  | cons m ms ih =>
    rw [List.mapM_cons] at h
    rcases Run.of_bind_error h with hfirst | ⟨v, st₁, hfirst, h⟩
    · exact ⟨m, List.mem_cons_self, st.scopes, hs, classify_error hfirst⟩
    obtain ⟨_, hv, _⟩ := classify_ok hfirst
    rcases Run.of_bind_error h with hothers | ⟨_, _, _, hpure⟩
    · obtain ⟨m', hm', found⟩ := ih (hs.next hv) hothers
      exact ⟨m', List.mem_cons_of_mem _ hm', found⟩
    · cases hpure

theorem enter_error (hs : t.ScopesReached st.scopes) (h : enter t c st = .error fault st') :
    ∃ m ∈ t.candidates c, ∃ s, t.ScopesReached s ∧ t.classify s m = .error fault := by
  unfold enter at h
  obtain ⟨_, h⟩ := (onlyLogs_announce t c _).drop_error h
  obtain ⟨_, h⟩ := (onlyLogs_keep _).drop_error h
  obtain ⟨_, h⟩ := (onlyLogs_announce t c _).drop_error h
  obtain ⟨_, h⟩ := (onlyLogs_announce t c _).drop_error h
  rcases Run.of_bind_error h with hmap | ⟨_, _, _, h⟩
  · refine mapM_classify_error ?_ hmap
    exact hs
  -- what follows the classification never fails
  obtain ⟨_, h⟩ := (onlyLogs_announce t c _).drop_error h
  rw [Run.get_bind] at h
  obtain ⟨_, h⟩ := (onlyLogs_logResolution t _).drop_error h
  obtain ⟨_, h⟩ := (onlyLogs_forM _ _ fun _ _ => onlyLogs_keep _).drop_error h
  obtain ⟨_, h⟩ := (onlyLogs_announce t c _).drop_error h
  obtain ⟨_, h⟩ := (onlyLogs_forM _ _ fun _ _ => onlyLogs_keep _).drop_error h
  rw [Run.modify_bind] at h
  exact absurd h (onlyLogs_announce t c _).no_error

theorem leave_no_error : leave t c st ≠ .error fault st' :=
  ((onlyLogs_announce t c _).andThen (onlyLogs_keep _)).no_error

/-! ## outcomes -/

theorem methods_settled (a : Analysis) (verdicts : List (MethodId × Verdict)) :
    (settled t a c verdicts).outcomes.map (·.method) =
      a.outcomes.map (·.method) ++ verdicts.map (·.1) := by
  rw [settled, List.map_append, List.map_map]
  rfl

theorem perm_outcomes (a : Analysis) :
    (a.promoted ++ a.retained.map (·.method)).Perm (a.outcomes.map (·.method)) := by
  rw [promoted, retained, ← List.map_append]
  exact (List.filter_append_perm _ _).map _

end Analysis

/-! ## rows of stops -/

namespace Table

variable {t : Table} {source : SourceUnit} {stops : List Stop} {st st' : AnalysisState} {fault : Fault}

theorem error_of_stops (hs : t.ScopesReached st.scopes) (h : stops.forM t.stopAt st = .error fault st') :
    ∃ c, ∃ m ∈ t.candidates c, ∃ s, t.ScopesReached s ∧ t.classify s m = .error fault := by
  induction stops generalizing st with
  | nil => cases h
  | cons stop stops ih =>
    rcases Run.of_bind_error h with hstop | ⟨_, st₁, hstop, hothers⟩
    · cases stop with
      | enter c => exact ⟨c, Analysis.enter_error hs hstop⟩
      | leave c => exact absurd hstop Analysis.leave_no_error
    · exact ih (hs.stops (stops_singleton stop hstop)) hothers

theorem decided_of_stops (h : stops.forM t.stopAt st = .ok () st') :
    st'.analysis.visited = st.analysis.visited ++ enteredAt stops ∧
      st'.analysis.outcomes.map (·.method) =
        st.analysis.outcomes.map (·.method) ++ (enteredAt stops).flatMap t.candidates := by
  induction stops generalizing st with
  | nil =>
    cases h
    exact ⟨(List.append_nil _).symm, (List.append_nil _).symm⟩
  | cons stop stops ih =>
    obtain ⟨_, st₁, hstop, hothers⟩ := Run.of_bind_ok h
    obtain ⟨hvisited, hmethods⟩ := ih hothers
    cases stop with
    | enter c =>
      obtain ⟨verdicts, hclassified, hsettled⟩ := Analysis.enter_ok hstop
      have hentered : enteredAt (.enter c :: stops) = c :: enteredAt stops := rfl
      rw [hentered, List.flatMap_cons]
      rw [hsettled] at hvisited hmethods
      rw [Analysis.methods_settled, hclassified.methods, List.append_assoc] at hmethods
      exact ⟨by rw [hvisited, Analysis.settled, List.append_assoc, List.singleton_append], hmethods⟩
    | leave c =>
      rw [(Analysis.leave_ok hstop).1] at hvisited hmethods
      exact ⟨hvisited, hmethods⟩

/-! ## all candidates of a unit -/

theorem nodup_candidates (t : Table) (c : ClassId) : (t.candidates c).Nodup := by
  refine List.Nodup.filter _ (List.nodup_range.map fun i j hij => ?_)
  cases hij
  rfl

theorem nodup_allCandidates (t : Table) : t.allCandidates.Nodup := by
  refine List.nodup_flatMap.mpr ⟨fun c _ => t.nodup_candidates c, ?_⟩
  refine List.nodup_range.imp fun {c d} hne m hc hd => hne ?_
  rw [← owner_of_mem_candidates hc, owner_of_mem_candidates hd]

/-- where every text can be read and keys are distinct, a candidate gets a verdict -/
theorem classify_candidate_ne_error (built : ofSource source = .ok t) (hlegible : source.IsLegible)
    (hkeys : source.root.HasDistinctKeys) {s : Scopes} (reached : t.ScopesReached s) {c : ClassId}
    {m : MethodId} (hm : m ∈ t.candidates c) {fault : Fault} : t.classify s m ≠ .error fault := by
  intro hfails
  have hmethod := (promotable_of_mem_candidates hm).notConstructor
  have hends := classify_ends built (hasOwnBodies_of_ofSource built hkeys) reached hmethod
  refine hends.2 fault hfails ?_
  rw [source_of_ofSource built]
  exact hlegible

/-- The analysis of a unit either stops with the fault that the classification of a candidate ends with, which happens only if some
text cannot be read or two class-shaped nodes have one key; or it comes to its end. Then it visited the classes of the table one
by one, has one outcome for each candidate, in their order, and promotes each eligible method once; and what it promotes and what
it retains are together the candidates, none of them twice. -/
theorem analyze_decides_each_once (built : ofSource source = .ok t) (j : Journal) :
    (∃ fault st, t.analyze { scopes := t.scopes, journal := j } = .error fault st ∧
      (∃ c, ∃ m ∈ t.candidates c, ∃ s, t.ScopesReached s ∧ t.classify s m = .error fault) ∧
      ¬ (source.IsLegible ∧ source.root.HasDistinctKeys)) ∨
    ∃ st, t.analyze { scopes := t.scopes, journal := j } = .ok () st ∧
      st.analysis.visited = t.classIds ∧
      st.analysis.outcomes.map (·.method) = t.classIds.flatMap t.candidates ∧
      st.analysis.promoted.Nodup ∧
      (∀ m, m ∈ st.analysis.promoted ↔ m ∈ st.analysis.eligible) ∧
      (st.analysis.promoted ++ st.analysis.retained.map (·.method)).Perm t.allCandidates ∧
      t.allCandidates.Nodup := by
  cases hrun : t.analyze { scopes := t.scopes, journal := j } with
  | error fault st =>
    have hstops := hrun
    rw [analyze, visits_eq] at hstops
    have hfault := error_of_stops .start hstops
    refine .inl ⟨fault, st, rfl, hfault, fun hregular => ?_⟩
    obtain ⟨c, m, hm, s, hreached, hclassify⟩ := hfault
    exact classify_candidate_ne_error built hregular.1 hregular.2 hreached hm hclassify
  | ok _ st =>
    have hstops := hrun
    rw [analyze, visits_eq] at hstops
    obtain ⟨hvisited, hmethods⟩ := decided_of_stops hstops
    rw [(preordered_of_ofSource built).entered_topLevel (sound_of_ofSource built)] at hvisited hmethods
    have hparts : (st.analysis.promoted ++ st.analysis.retained.map (·.method)).Perm t.allCandidates := by
      have hperm := st.analysis.perm_outcomes
      rw [hmethods] at hperm
      exact hperm
    have hnodup := t.nodup_allCandidates
    exact .inr ⟨st, rfl, hvisited, hmethods, (List.nodup_append.mp (hparts.nodup_iff.mpr hnodup)).1,
      (passes_of_visits hrun).mem_promoted, hparts, hnodup⟩

/-- `class A { private int f() { return x; } int x; private void g() { class L { private void h() { } } } }` -/
def mixedClasses : SourceUnit :=
  .ofText ("class A \x7b private int f() \x7b return x; \x7d int x; " ++
    "private void g() \x7b class L \x7b private void h() \x7b \x7d \x7d \x7d \x7d") ⟨
    ⟨"program", true, false, 0, 102, none, [
      ⟨"class_declaration", true, false, 0, 102, none, [
        ⟨"identifier", true, false, 6, 7, some "name", []⟩,
        ⟨"class_body", true, false, 8, 102, some "body", [
          ⟨"method_declaration", true, false, 10, 39, none, [
            ⟨"modifiers", true, false, 10, 17, none, [
              ⟨"private", false, false, 10, 17, none, []⟩]⟩,
            ⟨"integral_type", true, false, 18, 21, some "type", []⟩,
            ⟨"identifier", true, false, 22, 23, some "name", []⟩,
            ⟨"formal_parameters", true, false, 23, 25, some "parameters", []⟩,
            ⟨"block", true, false, 26, 39, some "body", [
              ⟨"return_statement", true, false, 28, 37, none, [
                ⟨"identifier", true, false, 35, 36, none, []⟩]⟩]⟩]⟩,
          ⟨"field_declaration", true, false, 40, 46, none, [
            ⟨"integral_type", true, false, 40, 43, some "type", []⟩,
            ⟨"variable_declarator", true, false, 44, 45, some "declarator", [
              ⟨"identifier", true, false, 44, 45, some "name", []⟩]⟩]⟩,
          ⟨"method_declaration", true, false, 47, 100, none, [
            ⟨"modifiers", true, false, 47, 54, none, [
              ⟨"private", false, false, 47, 54, none, []⟩]⟩,
            ⟨"void_type", true, false, 55, 59, some "type", []⟩, ⟨"identifier", true, false, 60, 61, some "name", []⟩,
            ⟨"formal_parameters", true, false, 61, 63, some "parameters", []⟩,
            ⟨"block", true, false, 64, 100, some "body", [
              ⟨"class_declaration", true, false, 66, 98, none, [
                ⟨"identifier", true, false, 72, 73, some "name", []⟩,
                ⟨"class_body", true, false, 74, 98, some "body", [
                  ⟨"method_declaration", true, false, 76, 96, none, [
                    ⟨"modifiers", true, false, 76, 83, none, [
                      ⟨"private", false, false, 76, 83, none, []⟩]⟩,
                    ⟨"void_type", true, false, 84, 88, some "type", []⟩,
                    ⟨"identifier", true, false, 89, 90, some "name", []⟩,
                    ⟨"formal_parameters", true, false, 90, 92, some "parameters", []⟩,
                    ⟨"block", true, false, 93, 96, some "body", []⟩]⟩]⟩]⟩]⟩]⟩]⟩]⟩]⟩, none⟩

/-- one candidate is retained, and of the two promoted ones one is a method of a local class -/
theorem mixedClasses_decided_once :
    ∃ t st, ofSource mixedClasses = .ok t ∧ t.analyze { scopes := t.scopes } = .ok () st ∧
      st.analysis.visited = [0, 1] ∧
      st.analysis.outcomes.map (·.method) = [⟨0, 0⟩, ⟨0, 1⟩, ⟨1, 0⟩] ∧
      st.analysis.promoted.Nodup ∧ (∀ m, m ∈ st.analysis.promoted ↔ m ∈ st.analysis.eligible) ∧
      (st.analysis.promoted ++ st.analysis.retained.map (·.method)).Perm [⟨0, 0⟩, ⟨0, 1⟩, ⟨1, 0⟩] ∧
      st.analysis.retained.map (·.method) = [⟨0, 0⟩] := by
  have hcheck : (ofSource mixedClasses).toOption.any (fun t => t.classIds == [0, 1] &&
      (t.allCandidates == [⟨0, 0⟩, ⟨0, 1⟩, ⟨1, 0⟩] &&
        (t.stateAfter t.topLevelClasses { scopes := t.scopes }).any fun st =>
          st.analysis.retained.map (·.method) == [⟨0, 0⟩])) = true := by decide +kernel
  obtain ⟨t, built, hcheck⟩ := Run.of_toOption_any hcheck
  rw [Bool.and_eq_true, Bool.and_eq_true, beq_iff_eq, beq_iff_eq] at hcheck
  obtain ⟨hclasses, hcandidates, hstate⟩ := hcheck
  obtain ⟨st, hrun, hretained⟩ := visits_of_stateAfter hstate
  rcases t.analyze_decides_each_once built {} with ⟨_, _, hfails, _⟩ | ⟨st', hends, hdecided⟩
  · cases hrun.symm.trans hfails
  · cases hrun.symm.trans hends
    obtain ⟨hvisited, hmethods, hnodup, hpromoted, hparts, _⟩ := hdecided
    rw [hclasses] at hvisited
    rw [show t.classIds.flatMap t.candidates = _ from hcandidates] at hmethods
    rw [hcandidates] at hparts
    exact ⟨t, st, built, hrun, hvisited, hmethods, hnodup, hpromoted, hparts, eq_of_beq hretained⟩

/-- `class A { private void f() { é; } }`, with a name that covers the first byte of its letter only -/
def cutName : SourceUnit :=
  .ofText "class A \x7b private void f() \x7b é; \x7d \x7d" ⟨
    ⟨"program", true, false, 0, 36, none, [
      ⟨"class_declaration", true, false, 0, 36, none, [
        ⟨"identifier", true, false, 6, 7, some "name", []⟩,
        ⟨"class_body", true, false, 8, 36, some "body", [
          ⟨"method_declaration", true, false, 10, 34, none, [
            ⟨"modifiers", true, false, 10, 17, none, [
              ⟨"private", false, false, 10, 17, none, []⟩]⟩,
            ⟨"void_type", true, false, 18, 22, some "type", []⟩, ⟨"identifier", true, false, 23, 24, some "name", []⟩,
            ⟨"formal_parameters", true, false, 24, 26, some "parameters", []⟩,
            ⟨"block", true, false, 27, 34, some "body", [
              ⟨"expression_statement", true, false, 29, 32, none, [
                ⟨"identifier", true, false, 29, 30, none, []⟩]⟩]⟩]⟩]⟩]⟩]⟩, none⟩

/-- the table is built, and its one candidate stays undecided -/
theorem cutName_undecided :
    ∃ t, ofSource cutName = .ok t ∧ t.allCandidates = [⟨0, 0⟩] ∧
      ∀ st, t.analyze { scopes := t.scopes } ≠ .ok () st := by
  have hcheck : (ofSource cutName).toOption.any (fun t => t.allCandidates == [⟨0, 0⟩] &&
      (t.stateAfter t.topLevelClasses { scopes := t.scopes }).isNone) = true := by decide +kernel
  obtain ⟨t, built, hcheck⟩ := Run.of_toOption_any hcheck
  rw [Bool.and_eq_true, beq_iff_eq] at hcheck
  refine ⟨t, built, hcheck.1, fun st hrun => ?_⟩
  have hnone := Option.isNone_iff_eq_none.mp hcheck.2
  rw [stateAfter, show t.topLevelClasses.forM t.visitClass _ = _ from hrun] at hnone
  cases hnone

end Table

end StaticPromotion
