import StaticPromotion.Proofs.Nesting
import StaticPromotion.Proofs.Soundness

/-!
# Every order of visits leads to the same methods

The methods that visits can find eligible at all form one set, which does not depend on any order. Visits only add to what was
found, and they stay within that set; once no class adds anything, all of it has been found.

* `Table.Attainable`           the set: candidates without direct use of the instance that call only members of it;
* `Table.prefix_of_stops`      visits keep what was found;
* `Table.Saturated`            no class adds anything;
* `Passes.mem_of_attainable`   then everything attainable has been found, by induction on why it is attainable;
* `Table.attained_of_stops`    if calls lead back in the order of the table, one visit of each class is enough;
* `Table.eligible_converges`   all of this about the visits of a unit.
-/

namespace StaticPromotion

open Eligibility

namespace Table

variable {t : Table} {source : SourceUnit}

variable {c : ClassId} {m : MethodId} {visits : List ClassId} {st st' : AnalysisState} {stops : List Stop}

/-! ## candidates -/

theorem owner_of_mem_candidates (h : m ∈ t.candidates c) : m.owner = c := by
  obtain ⟨_, _, rfl⟩ := List.mem_map.mp (List.mem_filter.mp h).1
  rfl

theorem mem_candidates_of_promotable (h : t.Promotable m) : m ∈ t.candidates m.owner := by
  refine List.mem_filter.mpr ⟨?_, by rw [h.declared, h.unskipped]; rfl⟩
  refine List.mem_map.mpr ⟨m.index, List.mem_range.mpr ?_, rfl⟩
  by_contra hout
  have hnode := h.declared
  rw [method, Array.getD_eq_getD_getElem?, Array.getElem?_eq_none (Nat.not_lt.mp hout)] at hnode
  cases hnode

theorem lt_of_promotable (h : t.Promotable m) : m.owner < t.classes.size := by
  obtain ⟨n, hnode⟩ := Option.isSome_iff_exists.mp h.declared
  exact (mem_methods_of_node hnode).1

def allCandidates (t : Table) : List MethodId :=
  t.classIds.flatMap t.candidates

theorem mem_allCandidates (h : t.Promotable m) : m ∈ t.allCandidates :=
  List.mem_flatMap.mpr ⟨m.owner, mem_classIds.mpr (lt_of_promotable h), mem_candidates_of_promotable h⟩

/-! ## the methods that can be found at all -/

/-- some inspection found that the candidate does not use its instance directly, and calls these methods -/
def ClearCandidate (t : Table) (m : MethodId) (callees : List MethodId) : Prop :=
  m ∈ t.candidates m.owner ∧ t.FoundClear m callees

/-- the least set that a candidate without direct use of the instance belongs to if all its callees do -/
def Attainable (t : Table) : MethodId → Prop :=
  Least t.ClearCandidate

theorem Passes.attainable (h : t.Passes visits st) (hm : m ∈ st.analysis.eligible) : t.Attainable m :=
  (h.grounded.2.least hm).mono fun _ _ ⟨hpromotable, hfound⟩ =>
    ⟨mem_candidates_of_promotable hpromotable, hfound⟩

theorem foundClear_iff (built : ofSource source = .ok t) (hplain : source.root.hasPlainInitializers = true)
    {callees : List MethodId} : t.FoundClear m callees ↔ t.verdict m = .ok (.clear callees) := by
  refine ⟨fun h => h.verdict built hplain, fun h => ?_⟩
  obtain ⟨⟨_, s'⟩, hclassify, rfl⟩ := classify_of_verdict h
  exact ⟨t.scopes, s', .start, hclassify⟩

/-! ## what a visit adds -/

theorem mem_settled {a : Analysis} {verdicts : List (MethodId × Verdict)} :
    m ∈ (Analysis.settled t a c verdicts).eligible ↔
      m ∈ a.eligible ∨ m ∈ (resolve a.eligible (Analysis.callees verdicts)).eligible := by
  simp only [Analysis.settled, Analysis.merge, List.mem_append, List.mem_filter]
  by_cases hm : m ∈ a.eligible <;> simp [hm]

theorem prefix_of_stops
    (h : stops.forM t.stopAt st = .ok () st') : st.analysis.eligible <+: st'.analysis.eligible := by
  refine keeps_of_stops (P := fun st₁ => st.analysis.eligible <+: st₁.analysis.eligible) ?_ ?_
    List.prefix_rfl h
  · intro c st₁ st₂ hst henter
    obtain ⟨verdicts, _, hsettled⟩ := Analysis.enter_ok henter
    rw [hsettled]
    exact hst.trans (List.prefix_append _ _)
  · intro c st₁ st₂ hst hleave
    rw [(Analysis.leave_ok hleave).1]
    exact hst

theorem of_stops_append {before after : List Stop} (h : (before ++ after).forM t.stopAt st = .ok () st') :
    ∃ st₁, before.forM t.stopAt st = .ok () st₁ ∧ after.forM t.stopAt st₁ = .ok () st' := by
  have hsplit : (before.forM t.stopAt >>= fun _ => after.forM t.stopAt) st = .ok () st' :=
    (congrFun List.forM_append st).symm.trans h
  obtain ⟨_, st₁, hbefore, hafter⟩ := Run.of_bind_ok hsplit
  exact ⟨st₁, hbefore, hafter⟩

theorem enter_of_stops (h : stops.forM t.stopAt st = .ok () st') (hc : c ∈ enteredAt stops) :
    ∃ (st₁ st₂ : AnalysisState) (before after : List Stop), before.forM t.stopAt st = .ok () st₁ ∧
      Analysis.enter t c st₁ = .ok () st₂ ∧ after.forM t.stopAt st₂ = .ok () st' := by
  obtain ⟨stop, hstop, heq⟩ := List.mem_filterMap.mp hc
  cases stop with
  | leave => cases heq
  | enter c' =>
    cases heq
    obtain ⟨before, after, rfl⟩ := List.append_of_mem hstop
    obtain ⟨st₁, hbefore, h⟩ := of_stops_append h
    obtain ⟨_, st₂, henter, hafter⟩ := Run.of_bind_ok h
    exact ⟨st₁, st₂, before, after, hbefore, henter, hafter⟩

section
variable (built : ofSource source = .ok t) (hplain : source.root.hasPlainInitializers = true)

variable {m : MethodId} {callees : List MethodId}
include built hplain

theorem Classified.mem_callees {s s' : Scopes} {ms : List MethodId}
    {vs : List (MethodId × Verdict)} (h : t.Classified s ms vs s') (hs : t.ScopesReached s) (hm : m ∈ ms)
    (hclear : t.FoundClear m callees) : (m, callees) ∈ Analysis.callees vs := by
  rw [← h.methods] at hm
  obtain ⟨⟨m, v⟩, hv, rfl⟩ := List.mem_map.mp hm
  obtain ⟨s₁, s₂, hs₁, hverdict⟩ := h.verdict hs hv
  have hsame := verdict_of_reached built hplain hs₁ m
  rw [hverdict, hclear.verdict built hplain] at hsame
  cases hsame
  exact List.mem_filterMap.mpr ⟨_, hv, rfl⟩

/-- entering the class of a candidate finds it, if its callees were found before or are found now -/
theorem mem_of_enter {c : ClassId} {st st' : AnalysisState} (hs : t.ScopesReached st.scopes)
    (henter : Analysis.enter t c st = .ok () st')
    (hm : m ∈ t.candidates c) (hclear : t.FoundClear m callees)
    (hcallees : ∀ e ∈ callees, e ∈ st'.analysis.eligible) : m ∈ st'.analysis.eligible := by
  obtain ⟨verdicts, hclassified, hsettled⟩ := Analysis.enter_ok henter
  rw [hsettled] at hcallees ⊢
  have hcandidate := hclassified.mem_callees built hplain hs hm hclear
  exact mem_settled.mpr (.inr (mem_eligible_of_callees hcandidate fun e he =>
    mem_settled.mp (hcallees e he)))

/-- stops that enter the class of a candidate find it, if its callees were found before -/
theorem mem_of_stops {stops : List Stop} {st st' : AnalysisState} (hs : t.ScopesReached st.scopes)
    (clear : t.ClearCandidate m callees)
    (hentered : m.owner ∈ enteredAt stops) (hrun : stops.forM t.stopAt st = .ok () st')
    (hcallees : ∀ e ∈ callees, e ∈ st.analysis.eligible) : m ∈ st'.analysis.eligible := by
  obtain ⟨st₁, st₂, before, after, hbefore, henter, hafter⟩ := enter_of_stops hrun hentered
  have hfound := mem_of_enter built hplain (hs.stops hbefore) henter clear.1 clear.2 fun e he =>
    (prefix_of_stops (stops_singleton (.enter m.owner) henter)).subset
      ((prefix_of_stops hbefore).subset (hcallees e he))
  exact (prefix_of_stops hafter).subset hfound

end

/-! ## saturation -/

/-- every class is among some visits that add nothing -/
def Saturated (t : Table) (st : AnalysisState) : Prop :=
  ∀ c < t.classes.size, ∃ (visits : List ClassId) (st' : AnalysisState), c ∈ visits ∧
    visits.forM t.visitClass st = .ok () st' ∧ st'.analysis.eligible ⊆ st.analysis.eligible

theorem mem_entered_of_visits (built : ofSource source = .ok t)
    (hc : c < t.classes.size) (hvisits : c ∈ visits) : c ∈ enteredAt (visits.flatMap t.tour) := by
  rw [enteredAt_flatMap]
  exact List.mem_flatMap.mpr ⟨c, hvisits,
    (preordered_of_ofSource built).mem_entered_tour (sound_of_ofSource built) hc⟩

theorem Passes.mem_of_attainable (built : ofSource source = .ok t)
    (hplain : source.root.hasPlainInitializers = true) (h : t.Passes visits st)
    (hsaturated : t.Saturated st) (hm : t.Attainable m) : m ∈ st.analysis.eligible := by
  induction hm with
  | @intro m callees clear _ ih =>
    have hc := lt_of_promotable (promotable_of_mem_candidates clear.1)
    obtain ⟨again, st', hmem, hrun, hnothing⟩ := hsaturated m.owner hc
    rw [visits_eq] at hrun
    exact hnothing (mem_of_stops built hplain h.grounded.1 clear
      (mem_entered_of_visits built hc hmem) hrun ih)

/-! ## one visit of each class -/

/-- the attainable methods of the classes before `n` are found -/
def AttainedBelow (t : Table) (n : ClassId) (st : AnalysisState) : Prop :=
  ∀ m, t.Attainable m → m.owner < n → m ∈ st.analysis.eligible

/-- no candidate calls a method of a later class -/
def CallsBack (t : Table) : Prop :=
  ∀ m callees, t.ClearCandidate m callees → ∀ e ∈ callees, e.owner ≤ m.owner

/-- every candidate has a verdict, and calls no method of a later class -/
def callsBack (t : Table) : Bool :=
  t.classIds.all fun c => (t.candidates c).all fun m =>
    match t.verdict m with
    | .ok (.clear callees) => callees.all (·.owner ≤ c)
    | .ok (.access _) => true
    | .error _ => false

section
variable (built : ofSource source = .ok t) (hplain : source.root.hasPlainInitializers = true)
include built hplain

theorem AttainedBelow.enter (hback : t.CallsBack) (h : t.AttainedBelow c st) (hs : t.ScopesReached st.scopes)
    (henter : Analysis.enter t c st = .ok () st') : t.AttainedBelow (c + 1) st' := by
  intro m hm hlt
  induction hm with
  | @intro m callees clear calls ih =>
    rcases Nat.lt_succ_iff_lt_or_eq.mp hlt with hbefore | howner
    · exact (prefix_of_stops (stops_singleton (.enter c) henter)).subset
        (h m (.intro clear calls) hbefore)
    · exact mem_of_enter built hplain hs henter (howner ▸ clear.1) clear.2 fun e he =>
        ih e he (Nat.lt_of_le_of_lt (hback m callees clear e he) hlt)

theorem attained_of_stops (hback : t.CallsBack) {n k : Nat} (hentered : enteredAt stops = List.range' k n)
    (hs : t.ScopesReached st.scopes) (h : t.AttainedBelow k st)
    (hrun : stops.forM t.stopAt st = .ok () st') : t.AttainedBelow (k + n) st' := by
  induction stops generalizing k n st with
  | nil =>
    cases hrun
    cases n with
    | zero => exact h
    | succ n => cases hentered
  | cons stop stops ih =>
    obtain ⟨_, st₁, hstop, hothers⟩ := Run.of_bind_ok hrun
    have hs₁ : t.ScopesReached st₁.scopes :=
      hs.stops (stops_singleton stop hstop)
    cases stop with
    | enter c =>
      cases n with
      | zero => cases hentered
      | succ n =>
        have hcons : c :: enteredAt stops = k :: List.range' (k + 1) n := hentered
        obtain ⟨rfl, hrest⟩ := List.cons.inj hcons
        have hdone := ih hrest hs₁ (h.enter built hplain hback hs hstop) hothers
        rw [Nat.add_assoc, Nat.add_comm 1 n] at hdone
        exact hdone
    | leave c =>
      refine ih hentered hs₁ ?_ hothers
      intro m hm hlt
      rw [(Analysis.leave_ok hstop).1]
      exact h m hm hlt

/-! ## visits that come to an end -/

theorem classifiable_of_verdicts (hverdicts : ∀ c, ∀ m ∈ t.candidates c, ∃ v, t.verdict m = .ok v) :
    ∀ c, ∀ m ∈ t.candidates c, t.Classifiable m := by
  intro c m hm s hs
  obtain ⟨v, hv⟩ := hverdicts c m hm
  rw [← verdict_of_reached built hplain hs m] at hv
  cases hclassify : t.classify s m with
  | error fault =>
    rw [hclassify] at hv
    cases hv
  | ok found => exact ⟨found, rfl⟩

theorem exists_visits_of_attainable (hm : t.Attainable m) :
    ∃ visits : List ClassId, ∀ st st', t.ScopesReached st.scopes →
      visits.forM t.visitClass st = .ok () st' → m ∈ st'.analysis.eligible := by
  induction hm with
  | @intro m callees clear _ ih =>
    have hall : ∀ es ⊆ callees, ∃ visits : List ClassId, ∀ st st', t.ScopesReached st.scopes →
        visits.forM t.visitClass st = .ok () st' → ∀ e ∈ es, e ∈ st'.analysis.eligible := by
      intro es
      induction es with
      | nil => exact fun _ => ⟨[], fun _ _ _ _ _ he => absurd he List.not_mem_nil⟩
      | cons e es ihes =>
        intro hsub
        obtain ⟨first, hfirst⟩ := ih e (hsub List.mem_cons_self)
        obtain ⟨others, hothers⟩ := ihes fun e' he' => hsub (List.mem_cons_of_mem _ he')
        refine ⟨first ++ others, fun st st' hs hrun => ?_⟩
        rw [visits_eq, List.flatMap_append] at hrun
        obtain ⟨st₁, hrun₁, hrun₂⟩ := of_stops_append hrun
        have hfound := hfirst st st₁ hs (by rw [visits_eq]; exact hrun₁)
        refine List.forall_mem_cons.mpr ⟨(prefix_of_stops hrun₂).subset hfound, ?_⟩
        exact hothers st₁ st' (hs.stops hrun₁) (by rw [visits_eq]; exact hrun₂)
    obtain ⟨visits, hvisits⟩ := hall callees (List.Subset.refl _)
    refine ⟨visits ++ [m.owner], fun st st' hs hrun => ?_⟩
    rw [visits_eq, List.flatMap_append] at hrun
    obtain ⟨st₁, hrun₁, hrun₂⟩ := of_stops_append hrun
    have hc := lt_of_promotable (promotable_of_mem_candidates clear.1)
    exact mem_of_stops built hplain (hs.stops hrun₁) clear
      (mem_entered_of_visits built hc (List.mem_singleton_self _)) hrun₂
      (hvisits st st₁ hs (by rw [visits_eq]; exact hrun₁))

end

/-! ## what is promoted -/

theorem mem_promoted_settled {a : Analysis} {verdicts : List (MethodId × Verdict)} :
    m ∈ (Analysis.settled t a c verdicts).promoted ↔
      m ∈ a.promoted ∨ m ∈ (resolve a.eligible (Analysis.callees verdicts)).eligible := by
  simp only [Analysis.promoted, Analysis.settled, List.filter_append, List.map_append,
    List.mem_append]
  refine or_congr_right ⟨fun hm => ?_, fun hm => ?_⟩
  · obtain ⟨o, ho, rfl⟩ := List.mem_map.mp hm
    obtain ⟨hnew, heligible⟩ := List.mem_filter.mp ho
    obtain ⟨⟨m, v⟩, _, rfl⟩ := List.mem_map.mp hnew
    have hsettle := eq_of_beq heligible
    cases v with
    | access finding => cases hsettle
    | clear edges =>
      simp only [Analysis.settle] at hsettle
      split at hsettle
      · exact List.contains_iff_mem.mp ‹_›
      · cases hsettle
  · obtain ⟨callees, hcallees⟩ := mem_passes hm
    refine List.mem_map.mpr ⟨⟨m, .eligible⟩, List.mem_filter.mpr ⟨?_, rfl⟩, rfl⟩
    refine List.mem_map.mpr ⟨_, mem_callees hcallees, ?_⟩
    simp only [Analysis.settle, if_pos (List.contains_iff_mem.mpr hm)]

theorem Passes.mem_promoted (h : t.Passes visits st)
    (m : MethodId) : m ∈ st.analysis.promoted ↔ m ∈ st.analysis.eligible := by
  refine h.induction (P := fun st => m ∈ st.analysis.promoted ↔ m ∈ st.analysis.eligible)
    (fun _ => Iff.rfl) ?_ ?_
  · intro c st st' hst henter
    obtain ⟨verdicts, _, hsettled⟩ := Analysis.enter_ok henter
    rw [hsettled, mem_settled, mem_promoted_settled, hst]
  · intro c st st' hst hleave
    rw [(Analysis.leave_ok hleave).1]
    exact hst

/-! ## the visits of a unit -/

theorem verdict_of_callsBack (h : t.callsBack = true) (hm : m ∈ t.candidates c) :
    ∃ v, t.verdict m = .ok v ∧ ∀ callees, v = .clear callees → ∀ e ∈ callees, e.owner ≤ m.owner := by
  have hc : c < t.classes.size :=
    owner_of_mem_candidates hm ▸ lt_of_promotable (promotable_of_mem_candidates hm)
  have hcheck := List.all_eq_true.mp (List.all_eq_true.mp h c (mem_classIds.mpr hc)) m hm
  rw [owner_of_mem_candidates hm]
  cases hverdict : t.verdict m with
  | error fault =>
    rw [hverdict] at hcheck
    cases hcheck
  | ok v =>
    refine ⟨v, rfl, ?_⟩
    rintro callees rfl e he
    rw [hverdict] at hcheck
    exact of_decide_eq_true (List.all_eq_true.mp hcheck e he)

theorem callsBack_of_verdicts (built : ofSource source = .ok t)
    (hplain : source.root.hasPlainInitializers = true)
    (hverdicts : ∀ c, ∀ m ∈ t.candidates c, ∃ v, t.verdict m = .ok v ∧
      ∀ callees, v = .clear callees → ∀ e ∈ callees, e.owner ≤ m.owner) : t.CallsBack := by
  rintro m callees ⟨hm, hclear⟩
  obtain ⟨v, hv, hcalls⟩ := hverdicts _ m hm
  rw [hclear.verdict built hplain] at hv
  cases hv
  exact hcalls callees rfl

theorem exists_analyze (built : ofSource source = .ok t) (hplain : source.root.hasPlainInitializers = true)
    (hback : t.CallsBack) (hverdicts : ∀ c, ∀ m ∈ t.candidates c, ∃ v, t.verdict m = .ok v) {j : Journal} :
    ∃ st, t.analyze { scopes := t.scopes, journal := j } = .ok () st ∧
      ∀ m, (m ∈ st.analysis.eligible ↔ t.Attainable m) ∧
        (m ∈ st.analysis.promoted ↔ t.Attainable m) := by
  have hstart : t.ScopesReached (AnalysisState.scopes { scopes := t.scopes, journal := j }) := .start
  obtain ⟨st, hrun⟩ := stops_return (classifiable_of_verdicts built hplain hverdicts)
    (t.topLevelClasses.flatMap t.tour) hstart
  have hentered : enteredAt (t.topLevelClasses.flatMap t.tour) = List.range' 0 t.classes.size := by
    rw [(preordered_of_ofSource built).entered_topLevel (sound_of_ofSource built), classIds,
      List.range_eq_range']
  have hattained := attained_of_stops built hplain hback hentered .start
    (fun _ _ hlt => absurd hlt (Nat.not_lt_zero _)) hrun
  have hanalyze : t.analyze { scopes := t.scopes, journal := j } = .ok () st := by
    rw [analyze, visits_eq]
    exact hrun
  have passes := passes_of_visits hanalyze
  have hiff : ∀ m, m ∈ st.analysis.eligible ↔ t.Attainable m := by
    refine fun m => ⟨fun hm => passes.attainable hm, fun hm => hattained m hm ?_⟩
    obtain ⟨clear, _⟩ := hm
    rw [Nat.zero_add]
    exact lt_of_promotable (promotable_of_mem_candidates clear.1)
  exact ⟨st, hanalyze, fun m => ⟨hiff m, (passes.mem_promoted m).trans (hiff m)⟩⟩

/-- Visits, of any classes in any order, only add to the eligible methods, and all they find is attainable. In a tree whose
static initializers are blocks each method has one verdict, and then all that is attainable is found as soon as no class adds
anything; if moreover every candidate has a verdict and calls no method of a later class, then the analysis of the unit comes
to its end and promotes all that is attainable. -/
theorem eligible_converges (built : ofSource source = .ok t) :
    (∀ visits st, t.Passes visits st →
      (∀ m ∈ st.analysis.eligible, t.Attainable m) ∧
      ∀ (more : List ClassId) st', more.forM t.visitClass st = .ok () st' →
        st.analysis.eligible <+: st'.analysis.eligible) ∧
    (source.root.hasPlainInitializers = true →
      (∀ m callees, t.FoundClear m callees ↔ t.verdict m = .ok (.clear callees)) ∧
      (∀ visits st, t.Passes visits st → t.Saturated st →
        ∀ m, m ∈ st.analysis.eligible ↔ t.Attainable m) ∧
      ((∀ c, ∀ m ∈ t.candidates c, ∃ v, t.verdict m = .ok v ∧
          ∀ callees, v = .clear callees → ∀ e ∈ callees, e.owner ≤ m.owner) →
        ∀ j, ∃ st, t.analyze { scopes := t.scopes, journal := j } = .ok () st ∧
          ∀ m, (m ∈ st.analysis.eligible ↔ t.Attainable m) ∧
            (m ∈ st.analysis.promoted ↔ t.Attainable m))) := by
  refine ⟨fun visits st passes => ⟨fun m hm => passes.attainable hm, fun more st' hrun => ?_⟩,
    fun hplain => ⟨fun m callees => foundClear_iff built hplain, fun visits st passes hsaturated m =>
      ⟨fun hm => passes.attainable hm, fun hm => passes.mem_of_attainable built hplain hsaturated hm⟩,
      fun hverdicts j => ?_⟩⟩
  · rw [visits_eq] at hrun
    exact prefix_of_stops hrun
  · exact exists_analyze built hplain (callsBack_of_verdicts built hplain hverdicts)
      fun c m hm => (hverdicts c m hm).imp fun _ h => h.1

/-- `class A { private void g() { } class B { private void f() { g(); } } }` -/
def nestedCall : SourceUnit :=
  .ofText "class A \x7b private void g() \x7b \x7d class B \x7b private void f() \x7b g(); \x7d \x7d \x7d" ⟨
    ⟨"program", true, false, 0, 70, none, [
      ⟨"class_declaration", true, false, 0, 70, none, [
        ⟨"class", false, false, 0, 5, none, []⟩, ⟨"identifier", true, false, 6, 7, some "name", []⟩,
        ⟨"class_body", true, false, 8, 70, some "body", [
          ⟨"method_declaration", true, false, 10, 30, none, [
            ⟨"modifiers", true, false, 10, 17, none, [
              ⟨"private", false, false, 10, 17, none, []⟩]⟩,
            ⟨"void_type", true, false, 18, 22, some "type", []⟩, ⟨"identifier", true, false, 23, 24, some "name", []⟩,
            ⟨"formal_parameters", true, false, 24, 26, some "parameters", []⟩,
            ⟨"block", true, false, 27, 30, some "body", []⟩]⟩,
          ⟨"class_declaration", true, false, 31, 68, none, [
            ⟨"class", false, false, 31, 36, none, []⟩, ⟨"identifier", true, false, 37, 38, some "name", []⟩,
            ⟨"class_body", true, false, 39, 68, some "body", [
              ⟨"method_declaration", true, false, 41, 66, none, [
                ⟨"modifiers", true, false, 41, 48, none, [
                  ⟨"private", false, false, 41, 48, none, []⟩]⟩,
                ⟨"void_type", true, false, 49, 53, some "type", []⟩,
                ⟨"identifier", true, false, 54, 55, some "name", []⟩,
                ⟨"formal_parameters", true, false, 55, 57, some "parameters", []⟩,
                ⟨"block", true, false, 58, 66, some "body", [
                  ⟨"expression_statement", true, false, 60, 64, none, [
                    ⟨"method_invocation", true, false, 60, 63, none, [
                      ⟨"identifier", true, false, 60, 61, some "name", []⟩,
                      ⟨"argument_list", true, false, 61, 63, some "arguments", []⟩]⟩]⟩]⟩]⟩]⟩]⟩]⟩]⟩]⟩, none⟩

/-- a row of visits that finds these methods, after which a visit of every class finds no more -/
def settlesAt (t : Table) (visits : List ClassId) (found : List MethodId) : Bool :=
  (t.stateAfter visits { scopes := t.scopes }).any fun st => st.analysis.eligible == found &&
    (t.stateAfter t.classIds st).any fun st' => st'.analysis.eligible == found

theorem saturated_of_settlesAt {found : List MethodId} (h : t.settlesAt visits found = true) :
    ∃ st, t.Passes visits st ∧ t.Saturated st ∧ st.analysis.eligible = found := by
  obtain ⟨st, hrun, hst⟩ := visits_of_stateAfter h
  rw [Bool.and_eq_true, beq_iff_eq] at hst
  obtain ⟨rfl, hagain⟩ := hst
  obtain ⟨st', hrun', hsame⟩ := visits_of_stateAfter hagain
  refine ⟨st, passes_of_visits hrun, fun c hc => ?_, rfl⟩
  exact ⟨t.classIds, st', mem_classIds.mpr hc, hrun', eq_of_beq hsame ▸ List.Subset.refl _⟩

/-- the inner class first, which finds nothing yet; then the outer one -/
theorem nestedCall_converges :
    ∃ t st, ofSource nestedCall = .ok t ∧ t.Passes [1, 0] st ∧ t.Saturated st ∧
      (∀ m, m ∈ st.analysis.eligible ↔ t.Attainable m) ∧ t.Attainable ⟨1, 0⟩ ∧
      ∃ st', t.analyze { scopes := t.scopes } = .ok () st' ∧ ⟨1, 0⟩ ∈ st'.analysis.promoted := by
  have hcheck : (ofSource nestedCall).toOption.any (fun t =>
      t.callsBack && t.settlesAt [1, 0] [⟨0, 0⟩, ⟨1, 0⟩]) = true := by decide +kernel
  obtain ⟨t, built, hcheck⟩ := Run.of_toOption_any hcheck
  rw [Bool.and_eq_true] at hcheck
  obtain ⟨hback, hsettles⟩ := hcheck
  obtain ⟨st, passes, hsaturated, heligible⟩ := saturated_of_settlesAt hsettles
  obtain ⟨_, hplain⟩ := eligible_converges built
  obtain ⟨_, hsaturates, hruns⟩ := hplain (by decide +kernel)
  have hall := hsaturates _ st passes hsaturated
  have hattainable : t.Attainable ⟨1, 0⟩ := (hall _).mp (heligible ▸ by decide)
  obtain ⟨st', hrun, hpromoted⟩ := hruns (fun _ _ hm => verdict_of_callsBack hback hm) {}
  exact ⟨t, st, built, passes, hsaturated, hall, hattainable, st', hrun,
    (hpromoted _).2.mpr hattainable⟩

/-- `g` is eligible only if `B` is visited first, and each of the two orders comes to an end of its own -/
theorem redeclared_orders_disagree :
    ∃ t st st', ofSource redeclared = .ok t ∧ t.verdict ⟨1, 0⟩ = .ok (.clear []) ∧ t.Attainable ⟨1, 0⟩ ∧
      (t.Passes [0] st ∧ t.Saturated st ∧ st.analysis.eligible = []) ∧
      t.Passes [1] st' ∧ t.Saturated st' ∧ st'.analysis.eligible = [⟨1, 0⟩] := by
  have hcheck : (ofSource redeclared).toOption.any (fun t => decide ((t.verdict ⟨1, 0⟩).toOption = some (.clear []) ∧
      t.settlesAt [0] [] = true ∧ t.settlesAt [1] [⟨1, 0⟩] = true)) = true := by decide +kernel
  obtain ⟨t, built, hcheck⟩ := Run.of_toOption_any hcheck
  obtain ⟨hverdict, houter, hinner⟩ := of_decide_eq_true hcheck
  obtain ⟨st, hst⟩ := saturated_of_settlesAt houter
  obtain ⟨st', passes, hsaturated, heligible⟩ := saturated_of_settlesAt hinner
  have hattainable : t.Attainable ⟨1, 0⟩ := passes.attainable (heligible ▸ List.mem_singleton_self _)
  exact ⟨t, st, st', built, Run.of_toOption_eq hverdict, hattainable, hst, passes, hsaturated, heligible⟩

end Table

end StaticPromotion
