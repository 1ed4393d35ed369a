import Mathlib.Logic.Function.Iterate
import StaticPromotion.Proofs.Confluence
import StaticPromotion.Proofs.Following

/-!
# Static added to some methods

A table in which some methods become static, whichever they are, says the same as before about everything else. So no verdict
without direct use of the instance is taken away, and to run the analysis again and again on what it promoted comes to an end.

* `Table.withStatic S`        `static` added to the modifiers of the methods `S`;
* `Table.restates_withStatic`, `Table.addsStatic_withStatic`    it says the same as the table, over the same tree;
* `Table.promotedByRun`, `Table.afterRun`    what an analysis promotes, and the table after that;
* `Table.exists_settled_run`  each run that promotes anything leaves fewer candidates;
* `Table.added_static_keeps_verdicts`    all of this together.
-/

namespace StaticPromotion

/-! ## one more modifier -/

def Method.withStatic (m : Method) : Method :=
  { m with modifiers := m.modifiers ++ ["static"] }

theorem Method.isStatic_withStatic (m : Method) : m.withStatic.isStatic = true := by
  simp [Method.isStatic, Method.withStatic]

theorem Method.isNonOverridable_withStatic (m : Method) :
    m.withStatic.isNonOverridable = m.isNonOverridable := by
  simp [Method.isNonOverridable, Method.withStatic]

namespace Table

variable {t : Table}

def withStatic (t : Table) (S : List MethodId) : Table :=
  { t with classes := t.classes.mapIdx fun c d =>
      { d with methods := d.methods.mapIdx fun index m =>
          if ⟨c, index⟩ ∈ S then m.withStatic else m } }

theorem decl_withStatic (t : Table) (S : List MethodId) (c : ClassId) :
    (t.withStatic S).decl c = { t.decl c with methods := (t.decl c).methods.mapIdx fun index m =>
      if ⟨c, index⟩ ∈ S then m.withStatic else m } := by
  rw [decl, decl, Array.getD_eq_getD_getElem?, Array.getD_eq_getD_getElem?, withStatic,
    Array.getElem?_mapIdx]
  cases t.classes[c]? with
  | some d => rfl
  | none => rfl

theorem method_withStatic (t : Table) (S : List MethodId) (m : MethodId) :
    (t.withStatic S).method m =
      if m ∈ S ∧ t.Declares m then (t.method m).withStatic
      else t.method m := by
  rw [method, method, decl_withStatic, Array.getD_eq_getD_getElem?, Array.getD_eq_getD_getElem?,
    Array.getElem?_mapIdx]
  by_cases hlt : t.Declares m
  · rw [Array.getElem?_eq_getElem hlt]
    by_cases hm : m ∈ S
    · rw [if_pos ⟨hm, hlt⟩]
      simp [hm]
    · rw [if_neg fun h => hm h.1]
      simp [hm]
  · rw [if_neg fun h => hlt h.2, Array.getElem?_eq_none (Nat.not_lt.mp hlt)]
    rfl

theorem map_edit_none (n : Option Node) : n.map (Node.edit .none) = n := by
  cases n <;> simp

theorem restates_withStatic (t : Table) (S : List MethodId) : t.Restates .none (t.withStatic S) where
  size := Array.size_mapIdx
  scopes := rfl
  package := rfl
  topLevel := rfl
  importedTypes := rfl
  staticImports := rfl
  decl c := by rw [decl_withStatic, map_edit_none]
  methodCount c := by
    rw [decl_withStatic]
    exact Array.size_mapIdx
  method m := by
    rw [method_withStatic, map_edit_none]
    split <;> rfl
  classFor n := by
    rw [Node.edit_none]
    rfl
  height := rfl

theorem addsStatic_withStatic (t : Table) (S : List MethodId) : AddsStatic S t (t.withStatic S) where
  isNonOverridable m := by
    rw [method_withStatic]
    split
    · exact Method.isNonOverridable_withStatic _
    · rfl
  isStatic m h := by
    rw [method_withStatic]
    by_cases hm : m ∈ S
    · rw [if_pos ⟨hm, h⟩, Method.isStatic_withStatic, decide_eq_true hm, Bool.or_true]
    · rw [if_neg fun h => hm h.1, decide_eq_false hm, Bool.or_false]

def followingWithStatic (t : Table) (S : List MethodId) : Following .none S t (t.withStatic S) where
  inTree _ := True
  faults := False
  faithful := False
  restates := t.restates_withStatic S
  adds := t.addsStatic_withStatic S
  child _ _ _ _ := trivial
  body _ _ _ := trivial
  method _ _ _ := trivial
  texts _ _ p _ := by rw [Node.edit_none]; rfl
  readable := .inr fun n text _ h => ⟨text, by rw [Node.edit_none]; exact h⟩
  captures := False.elim
  callees := False.elim

theorem classify_withStatic (S : List MethodId) {s s' : Scopes} {m : MethodId}
    {callees : List MethodId} (h : t.classify s m = .ok (.clear callees, s')) :
    (t.withStatic S).classify s m =
      .ok (.clear (callees.filter fun callee => decide (callee ∉ S)), s') := by
  rcases (t.followingWithStatic S).classify h with hclear | ⟨hfaults, _⟩
  · exact hclear
  · exact hfaults.elim

theorem verdict_withStatic (S : List MethodId) {m : MethodId} {callees : List MethodId}
    (h : t.verdict m = .ok (.clear callees)) :
    (t.withStatic S).verdict m = .ok (.clear (callees.filter fun callee => decide (callee ∉ S))) := by
  obtain ⟨⟨_, s'⟩, hclassify, rfl⟩ := classify_of_verdict h
  have hclear : (t.withStatic S).classify (t.withStatic S).scopes m = _ := classify_withStatic S hclassify
  rw [verdict, hclear]
  rfl

/-! ## runs after runs -/

theorem AddsStatic.allCandidates {e : Edit} {S : List MethodId} {t' : Table} (hadds : AddsStatic S t t')
    (h : t.Restates e t') : t'.allCandidates = t.allCandidates.filter fun m => decide (m ∉ S) := by
  rw [Table.allCandidates, h.classIds, funext (hadds.candidates h), Table.allCandidates,
    List.filter_flatMap]

/-- what an analysis of the table promotes; a fault promotes nothing -/
def promotedByRun (t : Table) : List MethodId :=
  match t.analyze { scopes := t.scopes } with
  | .ok _ st => st.analysis.promoted
  | .error _ _ => []

def afterRun (t : Table) : Table :=
  t.withStatic t.promotedByRun

theorem promotedByRun_subset (t : Table) : t.promotedByRun ⊆ t.allCandidates := by
  intro m hm
  unfold promotedByRun at hm
  split at hm
  · rename_i st hrun
    have passes := passes_of_visits hrun
    obtain ⟨_, _, hgrounded⟩ := passes.grounded.2
    exact mem_allCandidates (hgrounded m ((passes.mem_promoted m).mp hm)).1.1
  · cases hm

theorem length_candidates_afterRun (h : t.promotedByRun ≠ []) :
    t.afterRun.allCandidates.length < t.allCandidates.length := by
  obtain ⟨m, hm⟩ := List.exists_mem_of_ne_nil _ h
  rw [afterRun, (t.addsStatic_withStatic _).allCandidates (t.restates_withStatic _)]
  refine List.length_filter_lt_length_iff_exists.mpr ⟨m, t.promotedByRun_subset hm, ?_⟩
  simpa using hm

theorem exists_settled_run (t : Table) :
    ∃ k ≤ t.allCandidates.length, (∀ i < k, (afterRun^[i] t).promotedByRun ≠ []) ∧
      (afterRun^[k] t).promotedByRun = [] := by
  induction hlength : t.allCandidates.length using Nat.strongRecOn generalizing t with
  | ind n ih =>
    by_cases hnone : t.promotedByRun = []
    · exact ⟨0, Nat.zero_le _, fun i hi => absurd hi (Nat.not_lt_zero i), hnone⟩
    · have hlt := hlength ▸ length_candidates_afterRun hnone
      obtain ⟨k, hk, hbefore, hlast⟩ := ih _ hlt t.afterRun rfl
      refine ⟨k + 1, Nat.lt_of_le_of_lt hk hlt, fun i hi => ?_, ?_⟩
      · cases i with
        | zero => exact hnone
        | succ i =>
          rw [Function.iterate_succ_apply]
          exact hbefore i (Nat.lt_of_succ_lt_succ hi)
      · rw [Function.iterate_succ_apply]
        exact hlast

/-- an analysis comes to its end, unless the inspection of a candidate meets a fault -/
theorem analyze_returns (h : ∀ m ∈ t.allCandidates, t.Classifiable m) :
    ∃ st, t.analyze { scopes := t.scopes } = .ok () st := by
  have hcandidates : ∀ c, ∀ m ∈ t.candidates c, t.Classifiable m := fun c m hm =>
    h m (mem_allCandidates (promotable_of_mem_candidates hm))
  have hstart : t.ScopesReached (AnalysisState.scopes { scopes := t.scopes }) := .start
  obtain ⟨st, hrun⟩ := stops_return hcandidates (t.topLevelClasses.flatMap t.tour) hstart
  exact ⟨st, by rw [analyze, visits_eq]; exact hrun⟩

/-- Let some methods of a table become static, whichever they are. A method that was found to make no direct use of its
instance still makes none, and of the calls found in it those of the methods that became static are gone. This holds for the
methods that an analysis promotes in particular. So if what it promotes is made static and the analysis is run again, then after
no more changing runs than the table has candidates a table is reached on which it promotes nothing; and it comes to its end
there, provided that no inspection of a candidate meets a fault. -/
theorem added_static_keeps_verdicts (t : Table) :
    (∀ (S : List MethodId) (s s' : Scopes) (m : MethodId) (callees : List MethodId),
      t.classify s m = .ok (.clear callees, s') →
        (t.withStatic S).classify s m = .ok (.clear (callees.filter fun e => decide (e ∉ S)), s')) ∧
    (∀ m ∉ t.promotedByRun, ∀ callees, t.verdict m = .ok (.clear callees) →
      t.afterRun.verdict m =
        .ok (.clear (callees.filter fun e => decide (e ∉ t.promotedByRun)))) ∧
    ∃ k ≤ t.allCandidates.length,
      (∀ i < k, (afterRun^[i] t).promotedByRun ≠ []) ∧ (afterRun^[k] t).promotedByRun = [] ∧
      ((∀ m ∈ (afterRun^[k] t).allCandidates, (afterRun^[k] t).Classifiable m) →
        ∃ st, (afterRun^[k] t).analyze { scopes := (afterRun^[k] t).scopes } = .ok () st ∧
          st.analysis.promoted = []) := by
  refine ⟨fun S s s' m callees h => classify_withStatic S h,
    fun m _ callees h => verdict_withStatic _ h, ?_⟩
  obtain ⟨k, hk, hbefore, hlast⟩ := t.exists_settled_run
  refine ⟨k, hk, hbefore, hlast, fun hclassifiable => ?_⟩
  obtain ⟨st, hrun⟩ := analyze_returns hclassifiable
  refine ⟨st, hrun, ?_⟩
  rw [promotedByRun, hrun] at hlast
  exact hlast

/-- `class A extends B { private void f() { g(); } } class B { final void g() { } }` -/
def laterSuperText : String :=
  "class A extends B \x7b private void f() \x7b g(); \x7d \x7d class B \x7b final void g() \x7b \x7d \x7d"

def laterSuperTree : ParseTree where
  root :=
    ⟨"program", true, false, 0, 78, none, [
      ⟨"class_declaration", true, false, 0, 47, none, [
        ⟨"class", false, false, 0, 5, none, []⟩, ⟨"identifier", true, false, 6, 7, some "name", []⟩,
        ⟨"superclass", true, false, 8, 17, some "superclass", [
          ⟨"extends", false, false, 8, 15, none, []⟩, ⟨"type_identifier", true, false, 16, 17, none, []⟩]⟩,
        ⟨"class_body", true, false, 18, 47, some "body", [
          ⟨"method_declaration", true, false, 20, 45, none, [
            ⟨"modifiers", true, false, 20, 27, none, [
              ⟨"private", false, false, 20, 27, none, []⟩]⟩,
            ⟨"void_type", true, false, 28, 32, some "type", []⟩, ⟨"identifier", true, false, 33, 34, some "name", []⟩,
            ⟨"formal_parameters", true, false, 34, 36, some "parameters", []⟩,
            ⟨"block", true, false, 37, 45, some "body", [
              ⟨"expression_statement", true, false, 39, 43, none, [
                ⟨"method_invocation", true, false, 39, 42, none, [
                  ⟨"identifier", true, false, 39, 40, some "name", []⟩,
                  ⟨"argument_list", true, false, 40, 42, some "arguments", []⟩]⟩]⟩]⟩]⟩]⟩]⟩,
      ⟨"class_declaration", true, false, 48, 78, none, [
        ⟨"class", false, false, 48, 53, none, []⟩, ⟨"identifier", true, false, 54, 55, some "name", []⟩,
        ⟨"class_body", true, false, 56, 78, some "body", [
          ⟨"method_declaration", true, false, 58, 76, none, [
            ⟨"modifiers", true, false, 58, 63, none, [
              ⟨"final", false, false, 58, 63, none, []⟩]⟩,
            ⟨"void_type", true, false, 64, 68, some "type", []⟩, ⟨"identifier", true, false, 69, 70, some "name", []⟩,
            ⟨"formal_parameters", true, false, 70, 72, some "parameters", []⟩,
            ⟨"block", true, false, 73, 76, some "body", []⟩]⟩]⟩]⟩]⟩

def laterSuper : SourceUnit :=
  .ofText laterSuperText laterSuperTree

/-- the first run promotes the method of the later class, which the second run finds static; the third promotes nothing -/
theorem laterSuper_keeps_verdicts :
    ∃ t, ofSource laterSuper = .ok t ∧ t.verdict ⟨0, 0⟩ = .ok (.clear [⟨1, 0⟩]) ∧
      t.promotedByRun = [⟨1, 0⟩] ∧ t.afterRun.verdict ⟨0, 0⟩ = .ok (.clear []) ∧
      t.afterRun.promotedByRun = [⟨0, 0⟩] ∧ t.allCandidates.length = 2 ∧
      ∃ k ≤ 2, 2 ≤ k ∧ (afterRun^[k] t).promotedByRun = [] := by
  have hcheck : (ofSource laterSuper).toOption.any (fun t => t.promotedByRun == [⟨1, 0⟩] &&
      (t.afterRun.promotedByRun == [⟨0, 0⟩] && (t.allCandidates.length == 2 &&
        (t.verdict ⟨0, 0⟩).toOption.any (· == .clear [⟨1, 0⟩])))) = true := by decide +kernel
  obtain ⟨t, built, hcheck⟩ := Run.of_toOption_any hcheck
  simp only [Bool.and_eq_true, beq_iff_eq] at hcheck
  obtain ⟨hfirst, hsecond, hcount, hcheck⟩ := hcheck
  obtain ⟨v, hverdict, hv⟩ := Run.of_toOption_any hcheck
  rw [beq_iff_eq.mp hv] at hverdict
  obtain ⟨_, hkeeps, k, hk, _, hlast, _⟩ := added_static_keeps_verdicts t
  have hafter := hkeeps ⟨0, 0⟩ (hfirst ▸ by decide) _ hverdict
  rw [hfirst] at hafter
  refine ⟨t, built, hverdict, hfirst, hafter, hsecond, hcount, k, hcount ▸ hk, ?_, hlast⟩
  match k, hlast with
  | 0, hlast => exact absurd (hfirst.symm.trans hlast) (by decide)
  | 1, hlast => exact absurd (hsecond.symm.trans hlast) (by decide)
  | k + 2, _ => exact Nat.le_add_left 2 k

end Table

end StaticPromotion
