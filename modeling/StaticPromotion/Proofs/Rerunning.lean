import StaticPromotion.Proofs.Promoting
import StaticPromotion.Proofs.Wording

/-!
# A second run

The text that a run wrote, with the tree that belongs to it, is the input of a second run. What the second one finds to promote
the first one had to leave: a method whose callees were promoted after its class was visited, or one that makes an instance of a
local class of a method that is static by now. Where there is neither, the second run changes nothing.

* `Table.promoted_eq_nil_iff`      an analysis promotes nothing if no candidate is free of its instance on its own account;
* `Table.LeftBehind`, `Table.Released`     the two kinds of methods that the second run finds;
* `Promotion.settled_of_none`, `Promotion.none_of_settled`     it promotes nothing if there are none of them, and only then;
* `Promotion.not_leftBehind`, `Promotion.not_released`     there are none if calls lead back in the order of the table, and no
                                   method that became static declares a class in its code;
* `Refactoring.rerun_promotes_left_behind`    all of this about runs.
-/

namespace StaticPromotion

variable {m : MethodId}

namespace Table

variable {t : Table} {source : SourceUnit}

/-! ## analyses that promote nothing -/

/-- at the bottom of what is attainable stands a method without calls -/
theorem exists_clear_of_attainable (h : t.Attainable m) : ∃ m', t.ClearCandidate m' [] := by
  induction h with
  | @intro m callees clear _ ih =>
    cases callees with
    | nil => exact ⟨m, clear⟩
    | cons e rest => exact ih e List.mem_cons_self

section
variable (built : ofSource source = .ok t) (hplain : source.root.hasPlainInitializers = true)
  {j : Journal} {st : AnalysisState}
  (hrun : t.analyze { scopes := t.scopes, journal := j } = .ok () st)
include built hplain hrun

omit hplain in
theorem mem_entered_of_analyze {c : ClassId} (hc : c ∈ t.classIds) :
    (t.topLevelClasses.flatMap t.tour).forM t.stopAt { scopes := t.scopes, journal := j } = .ok () st ∧
      c ∈ enteredAt (t.topLevelClasses.flatMap t.tour) := by
  rw [analyze, visits_eq] at hrun
  refine ⟨hrun, ?_⟩
  rw [(preordered_of_ofSource built).entered_topLevel (sound_of_ofSource built)]
  exact hc

/-- an analysis that came to its end has seen every candidate -/
theorem verdict_of_analyze (hm : m ∈ t.allCandidates) : ∃ v, t.verdict m = .ok v := by
  obtain ⟨c, hc, hm⟩ := List.mem_flatMap.mp hm
  obtain ⟨hstops, hentered⟩ := mem_entered_of_analyze built hrun hc
  obtain ⟨st₁, _, _, _, hbefore, henter, _⟩ := enter_of_stops hstops hentered
  obtain ⟨verdicts, hclassified, _⟩ := Analysis.enter_ok henter
  have hs : t.ScopesReached st₁.scopes := ScopesReached.stops .start hbefore
  rw [← hclassified.methods] at hm
  obtain ⟨⟨m, v⟩, hv, rfl⟩ := List.mem_map.mp hm
  obtain ⟨s₁, s₂, hs₁, hverdict⟩ := hclassified.verdict hs hv
  refine ⟨v, ?_⟩
  rw [← verdict_of_reached built hplain hs₁ m, hverdict]
  rfl

theorem promoted_eq_nil_iff :
    st.analysis.promoted = [] ↔ ∀ m ∈ t.allCandidates, t.verdict m ≠ .ok (.clear []) := by
  have passes := passes_of_visits hrun
  constructor
  · intro hnone m hm hclear
    obtain ⟨c, hc, hcandidate⟩ := List.mem_flatMap.mp hm
    cases owner_of_mem_candidates hcandidate
    obtain ⟨hstops, hentered⟩ := mem_entered_of_analyze built hrun hc
    have hfound : m ∈ st.analysis.eligible :=
      mem_of_stops built hplain .start ⟨hcandidate, (foundClear_iff built hplain).mpr hclear⟩
        hentered hstops fun _ he => absurd he List.not_mem_nil
    have hpromoted := (passes.mem_promoted m).mpr hfound
    rw [hnone] at hpromoted
    cases hpromoted
  · intro hnone
    by_contra hsome
    obtain ⟨m, hm⟩ := List.exists_mem_of_ne_nil _ hsome
    obtain ⟨m', hcandidate, hclear⟩ :=
      exists_clear_of_attainable (passes.attainable ((passes.mem_promoted m).mp hm))
    exact hnone m' (mem_allCandidates (promotable_of_mem_candidates hcandidate))
      ((foundClear_iff built hplain).mp hclear)

end

/-! ## what a second analysis finds -/

/-- whether the inspection of a method ends with a use of the instance -/
def usesInstance (t : Table) (m : MethodId) : Bool :=
  (t.verdict m).toOption.any fun v => match v with
    | .access _ => true
    | .clear _ => false

theorem access_of_usesInstance {t : Table} (h : t.usesInstance m = true) :
    ∃ finding, t.verdict m = .ok (.access finding) := by
  obtain ⟨v, hv, haccess⟩ := Run.of_toOption_any h
  cases v with
  | access finding => exact ⟨finding, hv⟩
  | clear callees => cases haccess

/-- a candidate that is still one in `t'`, while all that it calls became static -/
def LeftBehind (t t' : Table) (m : MethodId) : Prop :=
  m ∈ t'.allCandidates ∧
    ∃ callees, t.verdict m = .ok (.clear callees) ∧ ∀ e ∈ callees, t.BecameStatic t' e

/-- a candidate that used its instance, and in `t'` neither does so nor calls anything that might -/
def Released (t t' : Table) (m : MethodId) : Prop :=
  m ∈ t'.allCandidates ∧
    (∃ finding, t.verdict m = .ok (.access finding)) ∧ t'.verdict m = .ok (.clear [])

end Table

namespace Promotion

variable {code out : String} {tree : ParseTree} {t : Table} {methods : List MethodId}
  (P : Promotion code tree t methods out)

theorem plain_after : P.unit.root.hasPlainInitializers = true := by
  show (tree.root.edit _).hasPlainInitializers = true
  rw [Node.hasPlainInitializers_edit]
  exact P.placed.initializers

theorem mem_allCandidates_after :
    m ∈ P.after.allCandidates ↔ m ∈ t.allCandidates ∧ m ∉ t.worded methods := by
  rw [P.addsStatic.allCandidates P.restates, List.mem_filter, decide_eq_true_eq]

section
variable (hverdicts : ∀ m ∈ t.allCandidates, ∃ v, t.verdict m = .ok v)
include hverdicts

/-- what is free of its instance in the new table is one of the two -/
theorem of_clear_after (hm : m ∈ P.after.allCandidates) (hclear : P.after.verdict m = .ok (.clear [])) :
    t.LeftBehind P.after m ∨ t.Released P.after m := by
  obtain ⟨v, hv⟩ := hverdicts m (P.mem_allCandidates_after.mp hm).1
  cases v with
  | access finding => exact .inr ⟨hm, ⟨finding, hv⟩, hclear⟩
  | clear callees =>
    refine .inl ⟨hm, callees, hv, fun e he => P.becameStatic_iff.mpr ?_⟩
    rcases P.verdict_after hv with hafter | ⟨fault, hfault⟩
    · rw [hclear] at hafter
      have hfilter : callees.filter (fun e => decide (e ∉ t.worded methods)) = [] := by
        injection hafter with hafter
        injection hafter with hafter
        exact hafter.symm
      have hnot := List.filter_eq_nil_iff.mp hfilter e he
      simpa using hnot
    · rw [hclear] at hfault
      cases hfault

/-- a second analysis promotes nothing, if it finds neither -/
theorem settled_of_none (hnone : ∀ m, ¬ t.LeftBehind P.after m ∧ ¬ t.Released P.after m) :
    ∀ m ∈ P.after.allCandidates, P.after.verdict m ≠ .ok (.clear []) := by
  intro m hm hclear
  rcases P.of_clear_after hverdicts hm hclear with hleft | hreleased
  · exact (hnone m).1 hleft
  · exact (hnone m).2 hreleased

end

/-- and only then, if all its inspections come to their end -/
theorem none_of_settled (hverdicts : ∀ m ∈ P.after.allCandidates, ∃ v, P.after.verdict m = .ok v)
    (hsettled : ∀ m ∈ P.after.allCandidates, P.after.verdict m ≠ .ok (.clear [])) (m : MethodId) :
    ¬ t.LeftBehind P.after m ∧ ¬ t.Released P.after m := by
  constructor
  · rintro ⟨hm, callees, hclear, hstatic⟩
    rcases P.verdict_after hclear with hafter | ⟨fault, hfault⟩
    · have hfilter : callees.filter (fun e => decide (e ∉ t.worded methods)) = [] :=
        List.filter_eq_nil_iff.mpr fun e he => by
          simpa using P.becameStatic_iff.mp (hstatic e he)
      rw [hfilter] at hafter
      exact hsettled m hm hafter
    · obtain ⟨v, hv⟩ := hverdicts m hm
      rw [hfault] at hv
      cases hv
  · rintro ⟨hm, _, hclear⟩
    exact hsettled m hm hclear

/-- what calls only promoted methods was promoted, if calls lead back in the order of the table -/
theorem not_leftBehind {j : Journal} {st : AnalysisState}
    (hrun : t.analyze { scopes := t.scopes, journal := j } = .ok () st)
    (hmethods : methods = st.analysis.promoted) (hback : t.CallsBack)
    (honly : ∀ m, t.BecameStatic P.after m → m ∈ methods) (m : MethodId) : ¬ t.LeftBehind P.after m := by
  have hplain := P.placed.initializers
  have hverdicts : ∀ c, ∀ m ∈ t.candidates c, ∃ v, t.verdict m = .ok v := fun c m hm =>
    Table.verdict_of_analyze P.built hplain hrun
      (Table.mem_allCandidates (Table.promotable_of_mem_candidates hm))
  obtain ⟨st', hrun', hattained⟩ := Table.exists_analyze P.built hplain hback hverdicts (j := j)
  obtain rfl : st = st' := by
    rw [hrun] at hrun'
    cases hrun'
    rfl
  subst hmethods
  rintro ⟨hm, callees, hclear, hstatic⟩
  obtain ⟨hcandidate, hnot⟩ := P.mem_allCandidates_after.mp hm
  obtain ⟨c, _, hcandidate⟩ := List.mem_flatMap.mp hcandidate
  cases Table.owner_of_mem_candidates hcandidate
  have hattainable : t.Attainable m :=
    .intro ⟨hcandidate, (Table.foundClear_iff P.built hplain).mpr hclear⟩ fun e he =>
      (hattained e).2.mp (honly e (hstatic e he))
  exact hnot (P.mem_worded_of_mem ((hattained m).2.mpr hattainable))

theorem not_released (hkeeps : t.KeepsLocals P.after) (m : MethodId) : ¬ t.Released P.after m := by
  rintro ⟨_, ⟨finding, haccess⟩, hclear⟩
  exact P.access_after hkeeps haccess [] hclear

end Promotion

namespace Refactoring

variable {code : String} {tree : ParseTree} {j j' : Journal} {done : Stages}

/-! ## runs -/

theorem hasErrors_of_run {strict : Bool} {r : RunResult}
    (h : run strict code tree = .ok (r, j)) (herrors : r.errors = []) : tree.hasErrors = false := by
  rcases run_spec h with ⟨message, rfl⟩ | ⟨hsound, _⟩
  · exact absurd herrors (failure_result strict code message _).1
  · exact hsound

theorem run_returns (strict : Bool) (code : String) (tree : ParseTree) (h : tree.hasErrors = false) :
    ∃ r j, run strict code tree = .ok (r, j) := by
  unfold run
  rw [SourceUnit.check_of_sound h]
  dsimp only
  split
  · exact ⟨_, _, rfl⟩
  · exact ⟨_, _, rfl⟩

theorem code_of_stages (h : stages (.ofText code tree) j = .ok done j')
    (hnone : done.analysis.promoted = []) : done.code = code := by
  obtain ⟨hbuilt, _, _, _, hpromoted⟩ := stages_ok h
  have hcode := Table.promote_ok hpromoted
  rw [hnone, Table.source_of_ofSource hbuilt, Splice.ordered_eq] at hcode
  exact Utf8.encode_injective hcode

theorem analyze_of_stages
    (hdefects : tree.hasErrors = false) (h : stages (.ofText code tree) j = .ok done j') :
    analyze code tree = .ok (done.table, done.analysis) := by
  obtain ⟨hbuilt, ⟨j₁, st, hanalyzed, hanalysis⟩, _⟩ := stages_ok h
  obtain ⟨st', hanalyzed', hsame⟩ := Table.analyze_congr hanalyzed {}
  have hcheck : (SourceUnit.ofText code tree).check = .ok (.ofText code tree) :=
    SourceUnit.check_of_sound hdefects
  simp only [analyze, hcheck, hbuilt, EStateM.run, bind, Except.bind, hanalyzed', pure, Except.pure,
    hsame, hanalysis]

theorem promotion_of_stages (placed : tree.WellPlaced code) (h : stages (.ofText code tree) j = .ok done j') :
    Promotion code tree done.table done.analysis.promoted done.code where
  built := (stages_ok h).1
  placed := placed
  promotable := promotable_of_stages h
  woven := weaves_of_stages h placed.within

/-- a run over a promoted unit promotes nothing, and then changes nothing, if its analysis finds nothing free of its instance;
and only then, if it comes to its end -/
theorem rerun_cases {strict : Bool} {out : String} {tree' : ParseTree} {t' : Table}
    (built : Table.ofSource (.ofText out tree') = .ok t') (hplain : tree'.root.hasPlainInitializers = true)
    {r' : RunResult} (h : run strict out tree' = .ok (r', j')) : (r'.promoted = [] → r'.code = out) ∧
      ((∀ m ∈ t'.allCandidates, t'.verdict m ≠ .ok (.clear [])) → r'.promoted = []) ∧
      (r'.errors = [] → r'.promoted = [] → (∀ m ∈ t'.allCandidates, ∃ v, t'.verdict m = .ok v) ∧
          ∀ m ∈ t'.allCandidates, t'.verdict m ≠ .ok (.clear [])) := by
  rcases run_cases h with ⟨message, before, rfl⟩ | ⟨done, before, after, hstages, rfl⟩
  · obtain ⟨herrors, hcode, hpromoted, _⟩ := failure_result strict out message before
    exact ⟨fun _ => hcode, fun _ => hpromoted, fun hnone => absurd hnone herrors⟩
  · obtain ⟨hbuilt, ⟨j₁, st, hanalyzed, hanalysis⟩, _⟩ := stages_ok hstages
    obtain rfl : done.table = t' := by
      rw [built] at hbuilt
      cases hbuilt
      rfl
    have hpromoted : (success done after).1.promoted = [] ↔ done.analysis.promoted = [] :=
      List.map_eq_nil_iff
    have hiff := Table.promoted_eq_nil_iff built hplain hanalyzed
    rw [← hanalysis] at hiff
    refine ⟨fun hnone => code_of_stages hstages (hpromoted.mp hnone), fun hsettled =>
      hpromoted.mpr (hiff.mpr hsettled), fun _ hnone => ⟨fun m hm => ?_, ?_⟩⟩
    · exact Table.verdict_of_analyze built hplain hanalyzed hm
    · exact hiff.mp (hpromoted.mp hnone)

/-- A run that succeeds without errors is run again on the text that it wrote, with the tree that has the new words. The second
run returns. It changes nothing if it promotes nothing, and it promotes nothing if no method was left behind or is released by
the first run; if it meets no error, then only in that case. So a second run changes nothing if no candidate calls a method of a
later class, no method that became static declares a class in its code, and no method but the promoted ones became static. -/
theorem rerun_promotes_left_behind {strict : Bool} {code : String} {tree : ParseTree}
    {r : RunResult} {j : Journal} (h : run strict code tree = .ok (r, j)) (herrors : r.errors = [])
    (placed : tree.WellPlaced code) :
    ∃ (t t' : Table) (a : Analysis) (r' : RunResult) (j' : Journal),
      analyze code tree = .ok (t, a) ∧
      r.promoted = a.promoted.map (fun m =>
        ⟨t.displayName m.owner, (t.method m).name, (t.method m).line⟩) ∧
      Table.ofSource (.ofText r.code (tree.edit (t.wording a.promoted))) = .ok t' ∧
      run strict r.code (tree.edit (t.wording a.promoted)) = .ok (r', j') ∧
      (r'.promoted = [] → r'.code = r.code) ∧
      ((∀ m, ¬ t.LeftBehind t' m ∧ ¬ t.Released t' m) → r'.promoted = []) ∧
      (r'.errors = [] →
        (r'.promoted = [] ↔ ∀ m, ¬ t.LeftBehind t' m ∧ ¬ t.Released t' m)) ∧
      (t.CallsBack → t.KeepsLocals t' → (∀ m, t.BecameStatic t' m → m ∈ a.promoted) →
        r'.promoted = [] ∧ r'.code = r.code) := by
  have hdefects := hasErrors_of_run h herrors
  rcases run_cases h with ⟨message, before, rfl⟩ | ⟨done, before, after, hstages, rfl⟩
  · exact absurd herrors (failure_result strict code message before).1
  have P := promotion_of_stages placed hstages
  obtain ⟨_, ⟨j₁, st, hanalyzed, hanalysis⟩, _⟩ := stages_ok hstages
  have hverdicts : ∀ m ∈ done.table.allCandidates, ∃ v, done.table.verdict m = .ok v :=
    fun m hm => Table.verdict_of_analyze P.built placed.initializers hanalyzed hm
  obtain ⟨r', j', hagain⟩ := run_returns strict done.code
    (tree.edit (done.table.wording done.analysis.promoted))
    ((ParseTree.hasErrors_edit _ tree).trans hdefects)
  obtain ⟨hcode, hnothing, honly⟩ := rerun_cases P.ofSource P.plain_after hagain
  have hsettled := fun hnone => hnothing (P.settled_of_none hverdicts hnone)
  refine ⟨done.table, P.after, done.analysis, r', j', analyze_of_stages hdefects hstages, rfl,
    P.ofSource, hagain, hcode, hsettled, fun herrors' => ⟨fun hnone => ?_, hsettled⟩, fun hback hkeeps hstatic => ?_⟩
  · obtain ⟨hverdicts', hclear⟩ := honly herrors' hnone
    exact P.none_of_settled hverdicts' hclear
  · have hnone := hsettled fun m =>
      ⟨P.not_leftBehind hanalyzed (by rw [hanalysis]) hback hstatic m, P.not_released hkeeps m⟩
    exact ⟨hnone, hcode hnone⟩

/-- `class A { int x; private void f() { g(); } private final void g() { } private int h() { return x; } }` -/
def fieldReaderText : String :=
  "class A \x7b int x; private void f() \x7b g(); \x7d private final void g() \x7b \x7d " ++
    "private int h() \x7b return x; \x7d \x7d"

def fieldReaderTree : ParseTree where
  root :=
    ⟨"program", true, false, 0, 101, none, [
      ⟨"class_declaration", true, false, 0, 101, none, [
        ⟨"class", false, false, 0, 5, none, []⟩, ⟨"identifier", true, false, 6, 7, some "name", []⟩,
        ⟨"class_body", true, false, 8, 101, some "body", [
          ⟨"field_declaration", true, false, 10, 16, none, [
            ⟨"integral_type", true, false, 10, 13, some "type", [
              ⟨"int", false, false, 10, 13, none, []⟩]⟩,
            ⟨"variable_declarator", true, false, 14, 15, some "declarator", [
              ⟨"identifier", true, false, 14, 15, some "name", []⟩]⟩]⟩,
          ⟨"method_declaration", true, false, 17, 42, none, [
            ⟨"modifiers", true, false, 17, 24, none, [
              ⟨"private", false, false, 17, 24, none, []⟩]⟩,
            ⟨"void_type", true, false, 25, 29, some "type", []⟩, ⟨"identifier", true, false, 30, 31, some "name", []⟩,
            ⟨"formal_parameters", true, false, 31, 33, some "parameters", []⟩,
            ⟨"block", true, false, 34, 42, some "body", [
              ⟨"expression_statement", true, false, 36, 40, none, [
                ⟨"method_invocation", true, false, 36, 39, none, [
                  ⟨"identifier", true, false, 36, 37, some "name", []⟩,
                  ⟨"argument_list", true, false, 37, 39, some "arguments", []⟩]⟩]⟩]⟩]⟩,
          ⟨"method_declaration", true, false, 43, 69, none, [
            ⟨"modifiers", true, false, 43, 56, none, [
              ⟨"private", false, false, 43, 50, none, []⟩, ⟨"final", false, false, 51, 56, none, []⟩]⟩,
            ⟨"void_type", true, false, 57, 61, some "type", []⟩, ⟨"identifier", true, false, 62, 63, some "name", []⟩,
            ⟨"formal_parameters", true, false, 63, 65, some "parameters", []⟩,
            ⟨"block", true, false, 66, 69, some "body", []⟩]⟩,
          ⟨"method_declaration", true, false, 70, 99, none, [
            ⟨"modifiers", true, false, 70, 77, none, [
              ⟨"private", false, false, 70, 77, none, []⟩]⟩,
            ⟨"integral_type", true, false, 78, 81, some "type", [
              ⟨"int", false, false, 78, 81, none, []⟩]⟩,
            ⟨"identifier", true, false, 82, 83, some "name", []⟩,
            ⟨"formal_parameters", true, false, 83, 85, some "parameters", []⟩,
            ⟨"block", true, false, 86, 99, some "body", [
              ⟨"return_statement", true, false, 88, 97, none, [
                ⟨"return", false, false, 88, 94, none, []⟩, ⟨"identifier", true, false, 95, 96, none, []⟩]⟩]⟩]⟩]⟩]⟩]⟩

def fieldReaderRewritten : String :=
  "class A \x7b int x; private static void f() \x7b g(); \x7d private final static void g() \x7b \x7d " ++
    "private int h() \x7b return x; \x7d \x7d"

/-- two methods are promoted, one of which calls the other; the second run finds the third, which reads a field -/
theorem fieldReader_rerun_changes_nothing :
    ∃ (t : Table) (a : Analysis) (r r' : RunResult) (j j' : Journal),
      fieldReaderTree.WellPlaced fieldReaderText ∧
      run true fieldReaderText fieldReaderTree = .ok (r, j) ∧ r.errors = [] ∧
      r.code = fieldReaderRewritten ∧
      analyze fieldReaderText fieldReaderTree = .ok (t, a) ∧ a.promoted = [⟨0, 0⟩, ⟨0, 1⟩] ∧
      run true r.code (fieldReaderTree.edit (t.wording a.promoted)) = .ok (r', j') ∧
      r'.promoted = [] ∧ r'.code = r.code := by
  have hplaced : fieldReaderTree.WellPlaced fieldReaderText :=
    ⟨by decide +kernel, by decide +kernel, by decide +kernel, by decide +kernel⟩
  have hfirst : ((run true fieldReaderText fieldReaderTree).toOption.any fun done =>
      done.1.errors == [] && done.1.code == fieldReaderRewritten) = true := by
    simp only [run, stages, Table.promote, Splice.ordered_eq]
    decide +kernel
  have hsecond : ((analyze fieldReaderText fieldReaderTree).toOption.any fun found =>
      found.2.promoted == [⟨0, 0⟩, ⟨0, 1⟩] && (found.1.usesInstance ⟨0, 2⟩ &&
        (Table.ofSource (.ofText fieldReaderRewritten
          (fieldReaderTree.edit (found.1.wording found.2.promoted)))).toOption.any fun t' =>
            t'.allCandidates == [⟨0, 2⟩] && t'.usesInstance ⟨0, 2⟩)) = true := by
    decide +kernel
  obtain ⟨⟨r, j⟩, hrun, hresult⟩ := Run.of_toOption_any hfirst
  simp only [Bool.and_eq_true, beq_iff_eq] at hresult
  obtain ⟨herrors, hcode⟩ := hresult
  obtain ⟨t, t', a, r', j', hanalyze, _, hbuilt, hagain, hsame, hnothing, _⟩ :=
    rerun_promotes_left_behind hrun herrors hplaced
  obtain ⟨found, hfound, hresult⟩ := Run.of_toOption_any hsecond
  rw [hanalyze] at hfound
  cases hfound
  simp only [Bool.and_eq_true, beq_iff_eq] at hresult
  obtain ⟨hpromoted, huses, hresult⟩ := hresult
  obtain ⟨t'', hbuilt', hresult⟩ := Run.of_toOption_any hresult
  rw [← hcode, hbuilt] at hbuilt'
  cases hbuilt'
  rw [Bool.and_eq_true, beq_iff_eq] at hresult
  obtain ⟨hcandidates, huses'⟩ := hresult
  obtain ⟨finding, haccess⟩ := Table.access_of_usesInstance huses
  obtain ⟨finding', haccess'⟩ := Table.access_of_usesInstance huses'
  have hleft : r'.promoted = [] := by
    refine hnothing fun m => ⟨?_, ?_⟩
    · rintro ⟨hm, callees, hclear, _⟩
      rw [hcandidates] at hm
      cases List.mem_singleton.mp hm
      rw [haccess] at hclear
      cases hclear
    · rintro ⟨hm, _, hclear⟩
      rw [hcandidates] at hm
      cases List.mem_singleton.mp hm
      rw [haccess'] at hclear
      cases hclear
  exact ⟨t, a, r, r', j, j', hplaced, hrun, herrors, hcode, hanalyze, hpromoted, hagain, hleft,
    hsame hleft⟩

def laterSuperRewritten : String :=
  "class A extends B \x7b private void f() \x7b g(); \x7d \x7d " ++
    "class B \x7b final static void g() \x7b \x7d \x7d"

/-- `class A { private void f() { class L { } class K { private void g() { new L(); } } } }` -/
def localMaker : SourceUnit :=
  .ofText "class A \x7b private void f() \x7b class L \x7b \x7d class K \x7b private void g() \x7b new L(); \x7d \x7d \x7d \x7d" ⟨
    ⟨"program", true, false, 0, 86, none, [
      ⟨"class_declaration", true, false, 0, 86, none, [
        ⟨"class", false, false, 0, 5, none, []⟩, ⟨"identifier", true, false, 6, 7, some "name", []⟩,
        ⟨"class_body", true, false, 8, 86, some "body", [
          ⟨"method_declaration", true, false, 10, 84, none, [
            ⟨"modifiers", true, false, 10, 17, none, [
              ⟨"private", false, false, 10, 17, none, []⟩]⟩,
            ⟨"void_type", true, false, 18, 22, some "type", []⟩, ⟨"identifier", true, false, 23, 24, some "name", []⟩,
            ⟨"formal_parameters", true, false, 24, 26, some "parameters", []⟩,
            ⟨"block", true, false, 27, 84, some "body", [
              ⟨"class_declaration", true, false, 29, 40, none, [
                ⟨"class", false, false, 29, 34, none, []⟩, ⟨"identifier", true, false, 35, 36, some "name", []⟩,
                ⟨"class_body", true, false, 37, 40, some "body", []⟩]⟩,
              ⟨"class_declaration", true, false, 41, 82, none, [
                ⟨"class", false, false, 41, 46, none, []⟩, ⟨"identifier", true, false, 47, 48, some "name", []⟩,
                ⟨"class_body", true, false, 49, 82, some "body", [
                  ⟨"method_declaration", true, false, 51, 80, none, [
                    ⟨"modifiers", true, false, 51, 58, none, [
                      ⟨"private", false, false, 51, 58, none, []⟩]⟩,
                    ⟨"void_type", true, false, 59, 63, some "type", []⟩,
                    ⟨"identifier", true, false, 64, 65, some "name", []⟩,
                    ⟨"formal_parameters", true, false, 65, 67, some "parameters", []⟩,
                    ⟨"block", true, false, 68, 80, some "body", [
                      ⟨"expression_statement", true, false, 70, 78, none, [
                        ⟨"object_creation_expression", true, false, 70, 77, none, [
                          ⟨"new", false, false, 70, 73, none, []⟩,
                          ⟨"type_identifier", true, false, 74, 75, some "type", []⟩,
                          ⟨"argument_list", true, false, 75, 77, some "arguments", []⟩]⟩]⟩]⟩]⟩]⟩]⟩]⟩]⟩]⟩]⟩]⟩, none⟩

/-- `A` is visited before `B`, so its method is left behind: it calls the method of `B`, which is promoted too late for it. The
second run promotes it. And once `f` is static, an instance of its local class `L` captures none of `A`, so `g` is released. -/
theorem rerun_promotes_further_methods :
    (∃ (t : Table) (a : Analysis) (r r' : RunResult) (j j' : Journal),
      Table.laterSuperTree.WellPlaced Table.laterSuperText ∧
      run false Table.laterSuperText Table.laterSuperTree = .ok (r, j) ∧ r.errors = [] ∧
      r.code = laterSuperRewritten ∧
      analyze Table.laterSuperText Table.laterSuperTree = .ok (t, a) ∧ a.promoted = [⟨1, 0⟩] ∧
      run false r.code (Table.laterSuperTree.edit (t.wording a.promoted)) = .ok (r', j') ∧
      r'.errors = [] ∧ r'.promoted = [⟨"A", "f", 1⟩] ∧ r'.code ≠ r.code) ∧
    ∃ t, Table.ofSource localMaker = .ok t ∧ t.promotedByRun = [⟨0, 0⟩] ∧
      t.Released t.afterRun ⟨2, 0⟩ ∧ t.afterRun.promotedByRun = [⟨2, 0⟩] := by
  have hplaced : Table.laterSuperTree.WellPlaced Table.laterSuperText :=
    ⟨by decide +kernel, by decide +kernel, by decide +kernel, by decide +kernel⟩
  have hfirst : ((run false Table.laterSuperText Table.laterSuperTree).toOption.any fun done =>
      done.1.errors == [] && done.1.code == laterSuperRewritten) = true := by
    simp only [run, stages, Table.promote, Splice.ordered_eq]
    decide +kernel
  have hsecond : ((analyze Table.laterSuperText Table.laterSuperTree).toOption.any fun found =>
      found.2.promoted == [⟨1, 0⟩] && (run false laterSuperRewritten
        (Table.laterSuperTree.edit (found.1.wording found.2.promoted))).toOption.any fun done =>
          done.1.errors == [] && (done.1.promoted == [⟨"A", "f", 1⟩] &&
            done.1.code != laterSuperRewritten)) = true := by
    simp only [run, stages, Table.promote, Splice.ordered_eq]
    decide +kernel
  have hlocal : (Table.ofSource localMaker).toOption.any (fun t => t.promotedByRun == [⟨0, 0⟩] &&
      (t.usesInstance ⟨2, 0⟩ && (t.afterRun.allCandidates == [⟨2, 0⟩] &&
        (t.afterRun.promotedByRun == [⟨2, 0⟩] &&
          (t.afterRun.verdict ⟨2, 0⟩).toOption.any (· == .clear []))))) = true := by
    decide +kernel
  obtain ⟨⟨r, j⟩, hrun, hresult⟩ := Run.of_toOption_any hfirst
  simp only [Bool.and_eq_true, beq_iff_eq] at hresult
  obtain ⟨herrors, hcode⟩ := hresult
  obtain ⟨⟨t, a⟩, hanalyze, hresult⟩ := Run.of_toOption_any hsecond
  rw [Bool.and_eq_true, beq_iff_eq] at hresult
  obtain ⟨hpromoted, hresult⟩ := hresult
  obtain ⟨⟨r', j'⟩, hagain, hresult⟩ := Run.of_toOption_any hresult
  simp only [Bool.and_eq_true, beq_iff_eq, bne_iff_ne] at hresult
  obtain ⟨herrors', hmore, hchanged⟩ := hresult
  rw [← hcode] at hagain hchanged
  refine ⟨⟨t, a, r, r', j, j', hplaced, hrun, herrors, hcode, hanalyze, hpromoted, hagain, herrors',
    hmore, hchanged⟩, ?_⟩
  obtain ⟨t, built, hresult⟩ := Run.of_toOption_any hlocal
  simp only [Bool.and_eq_true, beq_iff_eq] at hresult
  obtain ⟨hfirst, huses, hcandidates, hagain, hresult⟩ := hresult
  obtain ⟨v, hverdict, hclear⟩ := Run.of_toOption_any hresult
  rw [beq_iff_eq.mp hclear] at hverdict
  refine ⟨t, built, hfirst, ⟨?_, Table.access_of_usesInstance huses, hverdict⟩, hagain⟩
  rw [hcandidates]
  exact List.mem_singleton_self _

end Refactoring

end StaticPromotion
