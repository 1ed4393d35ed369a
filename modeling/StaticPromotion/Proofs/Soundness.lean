import StaticPromotion.Proofs.Grounding
import StaticPromotion.Proofs.Independence

/-!
# The methods found eligible

Whatever classes are visited, in whatever order and however often, the methods found eligible so far can become static
together: each was a candidate, none uses its instance directly, and each calls only others of them.

* `Table.FoundClear m callees`   some inspection of `m` found no direct use, and these callees;
* `Table.Calls`                  the calls that the verdicts of a table show;
* `Table.Passes.grounded`        every visit keeps the eligible methods grounded;
* `Table.eligible_rests_on_eligible`   so they rest on each other, without a cycle and without a way out.
-/

namespace StaticPromotion

open Eligibility Relation

namespace Table

/-! ## verdicts along visits -/

def FoundClear (t : Table) (m : MethodId) (callees : List MethodId) : Prop :=
  ∃ s s', t.ScopesReached s ∧ t.classify s m = .ok (.clear callees, s')

theorem mem_callees {verdicts : List (MethodId × Verdict)} {p : MethodId × List MethodId}
    (h : p ∈ Analysis.callees verdicts) : (p.1, .clear p.2) ∈ verdicts := by
  obtain ⟨⟨m, v⟩, hv, heq⟩ := List.mem_filterMap.mp h
  cases v with
  | access => cases heq
  | clear edges =>
    cases heq
    exact hv

/-- what holds between two stops of any row of visits -/
theorem Passes.grounded {t : Table} {visits : List ClassId} {st : AnalysisState} (h : t.Passes visits st) :
    t.ScopesReached st.scopes ∧
      Grounded (fun m callees => t.Promotable m ∧ t.FoundClear m callees) st.analysis.eligible := by
  refine h.induction (P := fun st => t.ScopesReached st.scopes ∧
    Grounded (fun m callees => t.Promotable m ∧ t.FoundClear m callees) st.analysis.eligible)
    (fun _ => ⟨.start, grounded_nil⟩) ?_ ?_
  · rintro c st st' ⟨hscopes, hgrounded⟩ henter
    obtain ⟨verdicts, hclassified, hsettled⟩ := Analysis.enter_ok henter
    refine ⟨hclassified.reached hscopes, ?_⟩
    have hclear : ∀ p ∈ Analysis.callees verdicts, t.Promotable p.1 ∧ t.FoundClear p.1 p.2 := by
      intro p hp
      have hverdict := mem_callees hp
      have hcandidate : p.1 ∈ t.candidates c := by
        rw [← hclassified.methods]
        exact List.mem_map_of_mem hverdict
      obtain ⟨s, s', hs, hclear⟩ := hclassified.verdict hscopes hverdict
      exact ⟨promotable_of_mem_candidates hcandidate, s, s', hs, hclear⟩
    rw [hsettled]
    refine (hgrounded.resolve hclear).congr fun m => ?_
    simp only [Analysis.settled, Analysis.merge, List.mem_append, List.mem_filter]
    by_cases hm : m ∈ st.analysis.eligible <;> simp [hm]
  · rintro c st st' ⟨hscopes, hgrounded⟩ hleave
    obtain ⟨hanalysis, hsame⟩ := Analysis.leave_ok hleave
    rw [hanalysis, hsame]
    exact ⟨hscopes, hgrounded⟩

def Calls (t : Table) (a b : MethodId) : Prop :=
  ∃ edges, t.verdict a = .ok (.clear edges) ∧ b ∈ edges

theorem FoundClear.verdict {source : SourceUnit} {t : Table} {m : MethodId}
    {callees : List MethodId} (h : t.FoundClear m callees) (built : ofSource source = .ok t)
    (hplain : source.root.hasPlainInitializers = true) : t.verdict m = .ok (.clear callees) := by
  obtain ⟨s, s', hs, hclear⟩ := h
  rw [← verdict_of_reached built hplain hs m, hclear]
  rfl

/-! ## the eligible methods -/

/-- The eligible methods of every state that visits come through: a candidate each, with a verdict that shows no direct use of
the instance and only calls of eligible methods of lower rank. So none can reach itself along calls, and no chain of calls
leads from one of them to a method that uses its instance. In a tree whose static initializers are blocks the verdicts are
those of the table as built. -/
theorem eligible_rests_on_eligible {source : SourceUnit} {t : Table}
    (built : ofSource source = .ok t) {visits : List ClassId} {st : AnalysisState}
    (passes : t.Passes visits st) :
    ∃ (rank : MethodId → Nat) (calls : MethodId → List MethodId),
      (∀ m ∈ st.analysis.eligible, t.Promotable m ∧ t.FoundClear m (calls m) ∧
        ∀ e ∈ calls m, e ∈ st.analysis.eligible ∧ rank e < rank m) ∧
      (∀ m ∈ st.analysis.eligible, ¬ TransGen (fun a b => b ∈ calls a) m m) ∧
      (∀ m ∈ st.analysis.eligible, ∀ e, ReflTransGen (fun a b => b ∈ calls a) m e →
        e ∈ st.analysis.eligible) ∧
      (source.root.hasPlainInitializers = true →
        (∀ m ∈ st.analysis.eligible, t.verdict m = .ok (.clear (calls m))) ∧
        (∀ m ∈ st.analysis.eligible, ¬ TransGen t.Calls m m) ∧
        (∀ m ∈ st.analysis.eligible, ∀ e, ReflTransGen t.Calls m e →
          e ∈ st.analysis.eligible ∧ ∃ edges, t.verdict e = .ok (.clear edges))) := by
  obtain ⟨_, rank, calls, hgrounded⟩ := passes.grounded
  have hcalls : ∀ m ∈ st.analysis.eligible, ∀ e, e ∈ calls m →
      e ∈ st.analysis.eligible ∧ rank e < rank m := fun m hm => (hgrounded m hm).2
  refine ⟨rank, calls, ?_, ?_, ?_, fun hplain => ?_⟩
  · intro m hm
    obtain ⟨⟨hpromotable, hclear⟩, hlower⟩ := hgrounded m hm
    exact ⟨hpromotable, hclear, hlower⟩
  · intro m hm hcycle
    exact Nat.lt_irrefl _ (rank_lt_of_chain hcalls hm hcycle)
  · intro m hm e hchain
    exact mem_of_chain hcalls hm hchain
  · have hverdict : ∀ m ∈ st.analysis.eligible, t.verdict m = .ok (.clear (calls m)) :=
      fun m hm => (hgrounded m hm).1.2.verdict built hplain
    have hedges : ∀ m ∈ st.analysis.eligible, ∀ e, t.Calls m e →
        e ∈ st.analysis.eligible ∧ rank e < rank m := by
      rintro m hm e ⟨edges, hedges, he⟩
      rw [hverdict m hm] at hedges
      cases hedges
      exact hcalls m hm e he
    refine ⟨hverdict, ?_, ?_⟩
    · intro m hm hcycle
      exact Nat.lt_irrefl _ (rank_lt_of_chain hedges hm hcycle)
    · intro m hm e hchain
      have he := mem_of_chain hedges hm hchain
      exact ⟨he, calls e, hverdict e he⟩

/-- the state after some visits, if there is no fault -/
def stateAfter (t : Table) (visits : List ClassId) (st : AnalysisState) : Option AnalysisState :=
  match visits.forM t.visitClass st with
  | .ok _ st' => some st'
  | .error _ _ => none

theorem visits_of_stateAfter {t : Table} {visits : List ClassId} {st : AnalysisState} {p : AnalysisState → Bool}
    (h : (t.stateAfter visits st).any p = true) :
    ∃ st', visits.forM t.visitClass st = .ok () st' ∧ p st' = true := by
  unfold stateAfter at h
  split at h
  · exact ⟨_, ‹_›, h⟩
  · cases h

/-- `class A { private void f() { g(); } private void g() { } }` -/
def callPair : SourceUnit :=
  .ofText "class A \x7b private void f() \x7b g(); \x7d private void g() \x7b \x7d \x7d" ⟨
    ⟨"program", true, false, 0, 58, none, [
      ⟨"class_declaration", true, false, 0, 58, none, [
        ⟨"identifier", true, false, 6, 7, some "name", []⟩,
        ⟨"class_body", true, false, 8, 58, some "body", [
          ⟨"method_declaration", true, false, 10, 35, none, [
            ⟨"modifiers", true, false, 10, 17, none, [
              ⟨"private", false, false, 10, 17, none, []⟩]⟩,
            ⟨"void_type", true, false, 18, 22, some "type", []⟩, ⟨"identifier", true, false, 23, 24, some "name", []⟩,
            ⟨"formal_parameters", true, false, 24, 26, some "parameters", []⟩,
            ⟨"block", true, false, 27, 35, some "body", [
              ⟨"expression_statement", true, false, 29, 33, none, [
                ⟨"method_invocation", true, false, 29, 32, none, [
                  ⟨"identifier", true, false, 29, 30, some "name", []⟩,
                  ⟨"argument_list", true, false, 30, 32, some "arguments", []⟩]⟩]⟩]⟩]⟩,
          ⟨"method_declaration", true, false, 36, 56, none, [
            ⟨"modifiers", true, false, 36, 43, none, [
              ⟨"private", false, false, 36, 43, none, []⟩]⟩,
            ⟨"void_type", true, false, 44, 48, some "type", []⟩, ⟨"identifier", true, false, 49, 50, some "name", []⟩,
            ⟨"formal_parameters", true, false, 50, 52, some "parameters", []⟩,
            ⟨"block", true, false, 53, 56, some "body", []⟩]⟩]⟩]⟩]⟩, none⟩

/-- visited twice; the method that calls has the higher rank -/
theorem callPair_rests_on_callee :
    ∃ t st, ∃ rank : MethodId → Nat, ofSource callPair = .ok t ∧ t.Passes [0, 0] st ∧
      st.analysis.eligible = [⟨0, 1⟩, ⟨0, 0⟩] ∧ rank ⟨0, 1⟩ < rank ⟨0, 0⟩ ∧
      t.Calls ⟨0, 0⟩ ⟨0, 1⟩ ∧ ¬ TransGen t.Calls ⟨0, 0⟩ ⟨0, 0⟩ := by
  have hcheck : (ofSource callPair).toOption.any (fun t =>
      decide ((t.verdict ⟨0, 0⟩).toOption = some (.clear [⟨0, 1⟩])) &&
        (t.stateAfter [0, 0] { scopes := t.scopes }).any (·.analysis.eligible == [⟨0, 1⟩, ⟨0, 0⟩])) = true := by
    decide +kernel
  obtain ⟨t, built, hcheck⟩ := Run.of_toOption_any hcheck
  rw [Bool.and_eq_true, decide_eq_true_eq] at hcheck
  obtain ⟨hverdict, hstate⟩ := hcheck
  obtain ⟨st, hrun, heligible⟩ := visits_of_stateAfter hstate
  have passes := passes_of_visits hrun
  have heligible := eq_of_beq heligible
  obtain ⟨rank, calls, hgrounded, _, _, hbuilt⟩ := eligible_rests_on_eligible built passes
  obtain ⟨hcalls, hacyclic, _⟩ := hbuilt (by decide +kernel)
  have hmem : (⟨0, 0⟩ : MethodId) ∈ st.analysis.eligible := heligible ▸ by decide
  have hcallee : (⟨0, 1⟩ : MethodId) ∈ calls ⟨0, 0⟩ := by
    have hsame := (hcalls _ hmem).symm.trans (Run.of_toOption_eq hverdict)
    injection hsame with hsame
    injection hsame with hlist
    exact hlist ▸ List.mem_singleton_self _
  exact ⟨t, st, rank, built, passes, heligible, ((hgrounded _ hmem).2.2 _ hcallee).2,
    ⟨_, hcalls _ hmem, hcallee⟩, hacyclic _ hmem⟩

/-- `class A { private void f() { class B { private void g() { new X(); } static class X { } A.this; enum X { } } } }`, where
all that follows `static` is read as an initializer that is no block -/
def redeclared : SourceUnit :=
  .ofText ("class A \x7b private void f() \x7b class B \x7b private void g() \x7b new X(); \x7d " ++
    "static class X \x7b \x7d A.this; enum X \x7b \x7d \x7d \x7d \x7d") ⟨
    ⟨"program", true, false, 0, 112, none, [
      ⟨"class_declaration", true, false, 0, 112, none, [
        ⟨"identifier", true, false, 6, 7, some "name", []⟩,
        ⟨"class_body", true, false, 8, 112, some "body", [
          ⟨"method_declaration", true, false, 10, 110, none, [
            ⟨"modifiers", true, false, 10, 17, none, [
              ⟨"private", false, false, 10, 17, none, []⟩]⟩,
            ⟨"identifier", true, false, 23, 24, some "name", []⟩,
            ⟨"block", true, false, 27, 110, some "body", [
              ⟨"class_declaration", true, false, 29, 108, none, [
                ⟨"identifier", true, false, 35, 36, some "name", []⟩,
                ⟨"class_body", true, false, 37, 108, some "body", [
                  ⟨"method_declaration", true, false, 39, 68, none, [
                    ⟨"modifiers", true, false, 39, 46, none, [
                      ⟨"private", false, false, 39, 46, none, []⟩]⟩,
                    ⟨"identifier", true, false, 52, 53, some "name", []⟩,
                    ⟨"block", true, false, 56, 68, some "body", [
                      ⟨"object_creation_expression", true, false, 58, 65, none, [
                        ⟨"type_identifier", true, false, 62, 63, some "type", []⟩]⟩]⟩]⟩,
                  ⟨"static_initializer", true, false, 69, 106, none, [
                    ⟨"class_declaration", true, false, 76, 87, none, [
                      ⟨"identifier", true, false, 82, 83, some "name", []⟩,
                      ⟨"class_body", true, false, 84, 87, some "body", []⟩]⟩,
                    ⟨"field_access", true, false, 88, 94, none, [
                      ⟨"identifier", true, false, 88, 89, some "object", []⟩,
                      ⟨"this", true, false, 90, 94, some "field", []⟩]⟩,
                    ⟨"enum_declaration", true, false, 96, 106, none, [
                      ⟨"identifier", true, false, 101, 102, some "name", []⟩,
                      ⟨"enum_body", true, false, 103, 106, some "body", []⟩]⟩]⟩]⟩]⟩]⟩]⟩]⟩]⟩]⟩, none⟩

/-- As built, `X` is the second class of that name, and `g` is eligible. An inspection of `f` declares the first one again in the
scope of `B`, stops at `A.this`, and leaves it there: from then on `g` creates an inner class. -/
theorem redeclared_outlasts_verdict :
    ∃ t st s, ofSource redeclared = .ok t ∧ t.Passes [1, 0] st ∧ ⟨1, 0⟩ ∈ st.analysis.eligible ∧
      t.classify st.scopes ⟨1, 0⟩ = .ok (.access ⟨.createsInner "A.B.X", 1⟩, s) := by
  have hcheck : (ofSource redeclared).toOption.any (fun t => (t.stateAfter [1, 0] { scopes := t.scopes }).any fun st =>
      decide (⟨1, 0⟩ ∈ st.analysis.eligible ∧ (t.classify st.scopes ⟨1, 0⟩).toOption.map (·.1) =
        some (.access ⟨.createsInner "A.B.X", 1⟩))) = true := by decide +kernel
  obtain ⟨t, built, hstate⟩ := Run.of_toOption_any hcheck
  obtain ⟨st, hrun, hst⟩ := visits_of_stateAfter hstate
  obtain ⟨heligible, hverdict⟩ := of_decide_eq_true hst
  obtain ⟨⟨v, s⟩, hclassified, rfl⟩ := Option.map_eq_some_iff.mp hverdict
  exact ⟨t, st, s, built, passes_of_visits hrun, heligible, Run.of_toOption_eq hclassified⟩

end Table

end StaticPromotion
