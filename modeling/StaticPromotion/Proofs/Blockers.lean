import StaticPromotion.Proofs.Cycles
import StaticPromotion.Proofs.Decisions
import StaticPromotion.Proofs.Decoding

/-!
# What keeps a candidate from being eligible

A candidate without direct use of the instance is left over by a visit exactly if it calls a method that is not eligible after
the visit. The passes end only when no candidate is ready any more, so for each that is left over there is such a callee, and the
report names the first of them by line.

* `IsFirstObstacle line eligible callees e`   `e` is a callee that is not eligible, and none such stands on an earlier line;
* `blocker_cases`                 what is reported, with all callees eligible and without;
* `mem_resolve_iff`               a candidate is admitted exactly if all its callees are, or were eligible before;
* `Table.Enters`                  a class is entered in the course of some visits;
* `Table.Announces`               the outcome that was reported there, with the verdict and the methods eligible right after;
* `Table.pruned_names_obstacle`   every outcome was reported so, and says what is in the way.
-/

namespace StaticPromotion

namespace Eligibility

variable {μ : Type}

/-! ## the first obstacle -/

structure IsFirstObstacle (line : μ → Int) (eligible callees : List μ) (e : μ) : Prop where
  called : e ∈ callees
  outside : e ∉ eligible
  least : ∀ d ∈ callees, d ∉ eligible → line e ≤ line d

theorem leastBy?_eq_none {α : Type} {key : α → Int} {xs : List α} (h : leastBy? key xs = none) : xs = [] := by
  cases xs with
  | nil => rfl
  | cons x xs =>
    rw [leastBy?] at h
    split at h
    · cases h
    · split at h <;> cases h

theorem leastBy?_spec {α : Type} {key : α → Int} {xs : List α} {x : α} (h : leastBy? key xs = some x) :
    x ∈ xs ∧ ∀ y ∈ xs, key x ≤ key y := by
  induction xs generalizing x with
  | nil => cases h
  | cons first rest ih =>
    rw [leastBy?] at h
    cases hrest : leastBy? key rest with
    | none =>
      rw [hrest] at h
      cases h
      rw [leastBy?_eq_none hrest]
      exact ⟨List.mem_cons_self, fun y hy => by rw [List.mem_singleton.mp hy]⟩
    | some z =>
      obtain ⟨hz, hleast⟩ := ih hrest
      rw [hrest] at h
      dsimp only at h
      split at h
      · rename_i hless
        cases h
        refine ⟨List.mem_cons_of_mem _ hz, List.forall_mem_cons.mpr ⟨Int.le_of_lt hless, hleast⟩⟩
      · rename_i hnot
        cases h
        refine ⟨List.mem_cons_self, List.forall_mem_cons.mpr ⟨Int.le_refl _, fun y hy => ?_⟩⟩
        exact Int.le_trans (Int.not_lt.mp hnot) (hleast y hy)

/-- no name makes the other two wordings look like the one that names nobody -/
theorem message_ne_unnamed (name : μ → String) {b : Blocker μ} (h : b ≠ .unnamed) :
    b.message name ≠ "depends on an ineligible method" := by
  cases b with
  | unnamed => exact absurd rfl h
  | itself => exact fun heq => absurd heq (by rw [Blocker.message]; decide)
  | callee m =>
    intro heq
    have hfirst := congrArg (fun s => s.toList.head?) heq
    simp [Blocker.message, toString] at hfirst

variable [DecidableEq μ]

theorem blocker_cases (line : μ → Int) (eligible : List μ) (m : μ) (callees : List μ) :
    ((∀ e ∈ callees, e ∈ eligible) ∧ blocker line eligible m callees = .unnamed) ∨
      ∃ e, IsFirstObstacle line eligible callees e ∧
        blocker line eligible m callees = if e = m then .itself else .callee e := by
  have houtside : ∀ e, e ∈ callees.filter (fun c => !eligible.contains c) ↔ e ∈ callees ∧ e ∉ eligible := by
    intro e
    rw [List.mem_filter, Bool.not_eq_true', ← Bool.not_eq_true, List.contains_iff_mem]
  rw [blocker]
  cases hfirst : leastBy? line (callees.filter fun c => !eligible.contains c) with
  | none =>
    refine .inl ⟨fun e he => ?_, rfl⟩
    by_contra hnot
    have hmem := (houtside e).mpr ⟨he, hnot⟩
    rw [leastBy?_eq_none hfirst] at hmem
    cases hmem
  | some e =>
    obtain ⟨he, hleast⟩ := leastBy?_spec hfirst
    obtain ⟨hcalled, hnot⟩ := (houtside e).mp he
    exact .inr ⟨e, ⟨hcalled, hnot, fun d hd hdnot => hleast d ((houtside d).mpr ⟨hd, hdnot⟩)⟩, rfl⟩

theorem mem_resolve_iff {prior : List μ} {candidates : List (μ × List μ)} {m : μ} {callees : List μ}
    (distinct : (candidates.map (·.1)).Nodup) (hmem : (m, callees) ∈ candidates) :
    m ∈ (resolve prior candidates).eligible ↔
      ∀ e ∈ callees, e ∈ prior ∨ e ∈ (resolve prior candidates).eligible := by
  refine ⟨fun hm e he => ?_, fun h => mem_eligible_of_callees hmem h⟩
  obtain ⟨k, hlevel⟩ := exists_rank hm
  by_cases hprior : e ∈ prior
  · exact .inl hprior
  · obtain ⟨i, _, hi⟩ := ((mem_level_iff_callees distinct hmem k).mp hlevel).1 e he hprior
    exact .inr (mem_flatten_of_mem_level hi)

end Eligibility

open Eligibility

/-! ## what a visit reports -/

namespace Table

variable {t : Table} {visits : List ClassId} {c : ClassId} {st st' : AnalysisState} {o : Outcome} {v : Verdict}
  {eligible edges : List MethodId}

/-- in the course of some visits the class `c` is entered, which takes the state `st` to `st'` -/
def Enters (t : Table) (visits : List ClassId) (c : ClassId) (st st' : AnalysisState) : Prop :=
  ∃ before j, before ++ [.enter c] <+: visits.flatMap t.tour ∧
    before.forM t.stopAt { scopes := t.scopes, journal := j } = .ok () st ∧ Analysis.enter t c st = .ok () st'

/-- some visit gave the method of `o` the verdict `v` and reported `o`, and right after it `eligible` were eligible -/
def Announces (t : Table) (visits : List ClassId) (o : Outcome) (v : Verdict) (eligible : List MethodId) : Prop :=
  ∃ c st st' verdicts reported, t.Enters visits c st st' ∧
    t.Classified st.scopes (t.candidates c) verdicts st'.scopes ∧ (o.method, v) ∈ verdicts ∧
    st'.analysis.outcomes = st.analysis.outcomes ++ reported ∧ o ∈ reported ∧ st'.analysis.eligible = eligible

/-- every outcome was reported by some visit: by induction on the stops, from the last one backwards -/
theorem announces_of_stops {stops : List Stop} (hstops : stops <+: visits.flatMap t.tour) {j : Journal}
    (h : stops.forM t.stopAt { scopes := t.scopes, journal := j } = .ok () st) (ho : o ∈ st.analysis.outcomes) :
    ∃ v eligible, t.Announces visits o v eligible := by
  induction stops using List.reverseRecOn generalizing st with
  | nil =>
    cases h
    cases ho
  | append_singleton before stop ih =>
    obtain ⟨st₁, hbefore, hlast⟩ := of_stops_append h
    obtain ⟨_, _, hstop, hnil⟩ := Run.of_bind_ok hlast
    cases hnil
    have hprefix : before <+: visits.flatMap t.tour := (List.prefix_append _ _).trans hstops
    cases stop with
    | leave c =>
      rw [(Analysis.leave_ok hstop).1] at ho
      exact ih hprefix hbefore ho
    | enter c =>
      obtain ⟨verdicts, hclassified, hsettled⟩ := Analysis.enter_ok hstop
      have houtcomes := congrArg Analysis.outcomes hsettled
      rw [houtcomes] at ho
      rcases List.mem_append.mp ho with hold | hnew
      · exact ih hprefix hbefore hold
      · obtain ⟨v, hv, rfl⟩ := List.mem_map.mp hnew
        exact ⟨v.2, _, c, st₁, st, verdicts, _, ⟨before, j, hstops, hbefore, hstop⟩, hclassified, hv, houtcomes,
          hnew, rfl⟩

/-- what is reported was settled by the verdict, given what was admitted and what is eligible now -/
theorem Announces.settled (h : t.Announces visits o v eligible) :
    ∃ prior verdicts, (verdicts.map (·.1)).Nodup ∧ (o.method, v) ∈ verdicts ∧
      (∀ m, m ∈ eligible ↔ m ∈ prior ∨ m ∈ (resolve prior (Analysis.callees verdicts)).eligible) ∧
      o.decision = Analysis.settle t (resolve prior (Analysis.callees verdicts)).eligible eligible o.method v := by
  obtain ⟨c, st, st', verdicts, reported, ⟨_, _, _, _, henter⟩, hclassified, hv, hreported, ho, rfl⟩ := h
  obtain ⟨verdicts', hclassified', hsettled⟩ := Analysis.enter_ok henter
  obtain ⟨rfl, _⟩ := hclassified.unique hclassified'
  have hdistinct : (verdicts.map (·.1)).Nodup := by
    rw [hclassified.methods]
    exact t.nodup_candidates c
  refine ⟨st.analysis.eligible, verdicts, hdistinct, hv, fun m => ?_, ?_⟩
  · rw [hsettled]
    exact mem_settled
  · have houtcomes := congrArg Analysis.outcomes hsettled
    rw [hreported] at houtcomes
    rw [List.append_cancel_left houtcomes] at ho
    obtain ⟨w, hw, rfl⟩ := List.mem_map.mp ho
    -- a candidate has one verdict only
    have hsame : w = (w.1, v) := List.inj_on_of_nodup_map hdistinct hw hv rfl
    rw [hsettled, show v = w.2 from congrArg Prod.snd hsame.symm]
    rfl

/-! ## pruned candidates -/

/-- a candidate is reported as eligible exactly if all that it calls is eligible -/
theorem Announces.isEligible_iff (h : t.Announces visits o (.clear edges) eligible) :
    o.isEligible = true ↔ ∀ e ∈ edges, e ∈ eligible := by
  obtain ⟨prior, verdicts, hdistinct, hv, heligible, hdecision⟩ := h.settled
  have hadmitted : o.method ∈ (resolve prior (Analysis.callees verdicts)).eligible ↔ ∀ e ∈ edges, e ∈ eligible := by
    simp only [heligible]
    exact mem_resolve_iff (Analysis.nodup_callees hdistinct) (Analysis.mem_callees_iff.mpr hv)
  rw [Outcome.isEligible, beq_iff_eq, hdecision, Analysis.settle, ← hadmitted, ← List.contains_iff_mem]
  split
  · rename_i hin
    exact iff_of_true rfl hin
  · rename_i hnot
    exact iff_of_false (by simp) hnot

theorem Announces.obstacle (h : t.Announces visits o (.clear edges) eligible) (hnot : o.isEligible = false) :
    ∃ e, IsFirstObstacle (fun m => (t.method m).line) eligible edges e ∧
      o.decision = .pruned (if e = o.method then .itself else .callee e) := by
  obtain ⟨prior, verdicts, _, _, _, hdecision⟩ := h.settled
  have hpruned : o.decision = .pruned (blocker (fun m => (t.method m).line) eligible o.method edges) := by
    rw [hdecision, Analysis.settle, if_neg]
    intro hadmitted
    rw [Outcome.isEligible, hdecision, Analysis.settle, if_pos hadmitted] at hnot
    cases hnot
  rcases blocker_cases (fun m => (t.method m).line) eligible o.method edges with ⟨hall, _⟩ | ⟨e, hfirst, hblocker⟩
  · rw [h.isEligible_iff.mpr hall] at hnot
    cases hnot
  · exact ⟨e, hfirst, by rw [hpruned, hblocker]⟩

theorem exists_announces (h : t.Enters visits c st st') {m : MethodId} (hm : m ∈ t.candidates c) :
    ∃ o v, o.method = m ∧ o ∈ st'.analysis.outcomes ∧ t.Announces visits o v st'.analysis.eligible := by
  obtain ⟨before, j, hstops, hbefore, henter⟩ := h
  obtain ⟨verdicts, hclassified, hsettled⟩ := Analysis.enter_ok henter
  have houtcomes := congrArg Analysis.outcomes hsettled
  rw [← hclassified.methods] at hm
  obtain ⟨v, hv, rfl⟩ := List.mem_map.mp hm
  refine ⟨_, v.2, ?_, ?_, c, st, st', verdicts, _, ⟨before, j, hstops, hbefore, henter⟩, hclassified, ?_, houtcomes,
    List.mem_map_of_mem hv, rfl⟩
  · rfl
  · rw [houtcomes]
    exact List.mem_append_right _ (List.mem_map_of_mem hv)
  · exact hv

/-- Whatever classes are visited, in whatever order and however often: each visit reports an outcome for each candidate of its
class, and every outcome was reported so. A direct use of the instance is what is reported if the verdict found one. If it found
none, the candidate is eligible exactly if all methods that it calls are, after the visit; otherwise one of them that is not,
with the least line among these, is named as what is in the way, with words of its own if it is the candidate itself. So it is
never said that nothing is. -/
theorem pruned_names_obstacle (t : Table) (visits : List ClassId) :
    (∀ c st st', t.Enters visits c st st' → ∀ m ∈ t.candidates c,
      ∃ o v, o.method = m ∧ o ∈ st'.analysis.outcomes ∧ t.Announces visits o v st'.analysis.eligible) ∧
    (∀ st, t.Passes visits st → ∀ o ∈ st.analysis.outcomes, ∃ v eligible, t.Announces visits o v eligible) ∧
    (∀ o finding eligible, t.Announces visits o (.access finding) eligible → o.decision = .instanceAccess finding) ∧
    ∀ o edges eligible, t.Announces visits o (.clear edges) eligible →
      (o.isEligible = false ↔ ∃ e ∈ edges, e ∉ eligible) ∧
      (o.isEligible = false → o.decision.reason t ≠ "depends on an ineligible method" ∧
        ∃ e, IsFirstObstacle (fun m => (t.method m).line) eligible edges e ∧
          o.decision = .pruned (if e = o.method then .itself else .callee e) ∧
          o.decision.reason t = if e = o.method then "recursive call never reaches a static exit"
            else s!"calls '{t.qualifiedName e}', which cannot be made static") := by
  refine ⟨fun c st st' henters m hm => exists_announces henters hm, ?_, ?_, ?_⟩
  · rintro st ⟨stops, j, hstops, hrun⟩ o ho
    exact announces_of_stops hstops hrun ho
  · intro o finding eligible h
    obtain ⟨_, _, _, _, _, hdecision⟩ := h.settled
    exact hdecision
  · intro o edges eligible h
    refine ⟨?_, fun hnot => ?_⟩
    · rw [← Bool.not_eq_true, h.isEligible_iff]
      simp only [not_forall, exists_prop]
    · obtain ⟨e, hfirst, hdecision⟩ := h.obstacle hnot
      rw [hdecision, Decision.reason]
      refine ⟨message_ne_unnamed _ ?_, e, hfirst, rfl, ?_⟩
      · split <;> simp
      · split <;> rfl

/-- `class A { int x; private int g() { return x; } private void f() { f(); g(); } private void h() { h(); } }`, each member on a
line of its own -/
def tangled : SourceUnit :=
  .ofText ("class A \x7b\n  int x;\n  private int g() \x7b return x; \x7d\n" ++
    "  private void f() \x7b f(); g(); \x7d\n  private void h() \x7b h(); \x7d\n\x7d") ⟨
    ⟨"program", true, false, 0, 113, none, [
      ⟨"class_declaration", true, false, 0, 113, none, [
        ⟨"identifier", true, false, 6, 7, some "name", []⟩,
        ⟨"class_body", true, false, 8, 113, some "body", [
          ⟨"field_declaration", true, false, 12, 18, none, [
            ⟨"integral_type", true, false, 12, 15, some "type", []⟩,
            ⟨"variable_declarator", true, false, 16, 17, some "declarator", [
              ⟨"identifier", true, false, 16, 17, some "name", []⟩]⟩]⟩,
          ⟨"method_declaration", true, false, 21, 50, none, [
            ⟨"modifiers", true, false, 21, 28, none, [
              ⟨"private", false, false, 21, 28, none, []⟩]⟩,
            ⟨"integral_type", true, false, 29, 32, some "type", []⟩,
            ⟨"identifier", true, false, 33, 34, some "name", []⟩,
            ⟨"formal_parameters", true, false, 34, 36, some "parameters", []⟩,
            ⟨"block", true, false, 37, 50, some "body", [
              ⟨"return_statement", true, false, 39, 48, none, [
                ⟨"identifier", true, false, 46, 47, none, []⟩]⟩]⟩]⟩,
          ⟨"method_declaration", true, false, 53, 83, none, [
            ⟨"modifiers", true, false, 53, 60, none, [
              ⟨"private", false, false, 53, 60, none, []⟩]⟩,
            ⟨"void_type", true, false, 61, 65, some "type", []⟩, ⟨"identifier", true, false, 66, 67, some "name", []⟩,
            ⟨"formal_parameters", true, false, 67, 69, some "parameters", []⟩,
            ⟨"block", true, false, 70, 83, some "body", [
              ⟨"expression_statement", true, false, 72, 76, none, [
                ⟨"method_invocation", true, false, 72, 75, none, [
                  ⟨"identifier", true, false, 72, 73, some "name", []⟩,
                  ⟨"argument_list", true, false, 73, 75, some "arguments", []⟩]⟩]⟩,
              ⟨"expression_statement", true, false, 77, 81, none, [
                ⟨"method_invocation", true, false, 77, 80, none, [
                  ⟨"identifier", true, false, 77, 78, some "name", []⟩,
                  ⟨"argument_list", true, false, 78, 80, some "arguments", []⟩]⟩]⟩]⟩]⟩,
          ⟨"method_declaration", true, false, 86, 111, none, [
            ⟨"modifiers", true, false, 86, 93, none, [
              ⟨"private", false, false, 86, 93, none, []⟩]⟩,
            ⟨"void_type", true, false, 94, 98, some "type", []⟩, ⟨"identifier", true, false, 99, 100, some "name", []⟩,
            ⟨"formal_parameters", true, false, 100, 102, some "parameters", []⟩,
            ⟨"block", true, false, 103, 111, some "body", [
              ⟨"expression_statement", true, false, 105, 109, none, [
                ⟨"method_invocation", true, false, 105, 108, none, [
                  ⟨"identifier", true, false, 105, 106, some "name", []⟩,
                  ⟨"argument_list", true, false, 106, 108, some "arguments", []⟩]⟩]⟩]⟩]⟩]⟩]⟩]⟩, none⟩

/-- after a second visit: `f` is blocked by `g`, which stands before `f` itself, and `h` by itself -/
theorem tangled_names_obstacles :
    ∃ t st, ofSource tangled = .ok t ∧ t.Passes [0, 0] st ∧
      (∃ o ∈ st.analysis.outcomes, o.method = ⟨0, 1⟩ ∧ o.isEligible = false ∧
        o.decision.reason t = "calls 'A.g', which cannot be made static" ∧
        ∃ edges eligible, t.Announces [0, 0] o (.clear edges) eligible ∧
          IsFirstObstacle (fun m => (t.method m).line) eligible edges ⟨0, 0⟩) ∧
      ∃ o ∈ st.analysis.outcomes, o.method = ⟨0, 2⟩ ∧ o.isEligible = false ∧
        o.decision.reason t = "recursive call never reaches a static exit" ∧
        ∃ edges eligible, t.Announces [0, 0] o (.clear edges) eligible ∧
          IsFirstObstacle (fun m => (t.method m).line) eligible edges ⟨0, 2⟩ := by
  have hcheck : (ofSource tangled).toOption.any (fun t => t.qualifiedName ⟨0, 0⟩ == "A.g" &&
      (t.stateAfter [0, 0] { scopes := t.scopes }).any fun st =>
        st.analysis.outcomes.contains ⟨⟨0, 1⟩, .pruned (.callee ⟨0, 0⟩)⟩ &&
          st.analysis.outcomes.contains ⟨⟨0, 2⟩, .pruned .itself⟩) = true := by
    rw [tangled, SourceUnit.ofText_eq]
    decide +kernel
  obtain ⟨t, built, hcheck⟩ := Run.of_toOption_any hcheck
  rw [Bool.and_eq_true, beq_iff_eq] at hcheck
  obtain ⟨hname, hstate⟩ := hcheck
  obtain ⟨st, hrun, houtcomes⟩ := visits_of_stateAfter hstate
  rw [Bool.and_eq_true, List.contains_iff_mem, List.contains_iff_mem] at houtcomes
  have passes := passes_of_visits hrun
  obtain ⟨-, hreports, haccess, hclear⟩ := pruned_names_obstacle t [0, 0]
  refine ⟨t, st, built, passes, ⟨_, houtcomes.1, rfl, rfl, ?_, ?_⟩, ⟨_, houtcomes.2, rfl, rfl, rfl, ?_⟩⟩
  · rw [Decision.reason, Blocker.message, hname]
    rfl
  · obtain ⟨v, eligible, hreport⟩ := hreports st passes _ houtcomes.1
    cases v with
    | access finding => cases haccess _ _ _ hreport
    | clear edges =>
      obtain ⟨_, e, hfirst, hdecision, _⟩ := (hclear _ _ _ hreport).2 rfl
      refine ⟨edges, eligible, hreport, ?_⟩
      split at hdecision
      · cases hdecision
      · cases hdecision
        exact hfirst
  · obtain ⟨v, eligible, hreport⟩ := hreports st passes _ houtcomes.2
    cases v with
    | access finding => cases haccess _ _ _ hreport
    | clear edges =>
      obtain ⟨_, e, hfirst, hdecision, _⟩ := (hclear _ _ _ hreport).2 rfl
      refine ⟨edges, eligible, hreport, ?_⟩
      split at hdecision
      · rename_i hself
        cases hself
        exact hfirst
      · cases hdecision

end Table

end StaticPromotion
