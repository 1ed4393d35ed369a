import StaticPromotion.Proofs.Indexed
import StaticPromotion.Proofs.Splicing
import StaticPromotion.Proofs.Traversal
import StaticPromotion.Proofs.Visits
import StaticPromotion.Refactoring

/-!
# What a run does to the text

A run leaves the text as it was and says why, or it puts one word behind the last modifier of each promoted method. Nothing
else happens to any byte.

* `Table.lastKeyword?`           the last modifier keyword of a method;
* `Table.Promotable.spliceFor`   a candidate has one, and the word goes behind it;
* `Table.Passes.promotable`      all that has an outcome was a candidate;
* `Refactoring.run_cases`        the two ways in which a run ends;
* `Refactoring.run_cuts_behind_keywords`   the text after a run.
-/

namespace StaticPromotion

namespace Table

variable {t : Table} {m : MethodId}

/-! ## the keyword that the word goes behind -/

def lastKeyword? (t : Table) (m : MethodId) : Option Node :=
  (t.method m).modifiersNode.bind fun list =>
    (list.children.filter fun c => isModifierWord c.kind).getLast?

theorem modifiers_ne_nil {m : Method} (h : m.isNonOverridable = true) : m.modifiers ≠ [] := by
  intro hnil
  rw [Method.isNonOverridable, hnil] at h
  cases h

theorem Promotable.spliceFor (h : t.Promotable m) (hsound : t.Sound) :
    ∃ word, t.lastKeyword? m = some word ∧ word ∈ t.source.root.preorder ∧
      t.spliceFor m = some ⟨word.stop, Splice.behind⟩ := by
  obtain ⟨node, hnode⟩ := Option.isSome_iff_exists.mp h.declared
  have hdeclared := hsound.declaredBy hnode
  have hwords : node.modifiers.1 ≠ [] := hdeclared.modifiers ▸ modifiers_ne_nil h.nonOverridable
  cases hlist : node.children.find? (·.kind == "modifiers") with
  | none =>
    rw [Node.modifiers, hlist] at hwords
    exact absurd rfl hwords
  | some list =>
    have hmodifiers : (t.method m).modifiersNode = some list := by
      rw [Method.modifiersNode, hnode, Option.bind_some, Node.modifiers, hlist]
    rw [Node.modifiers, hlist] at hwords
    cases hlast : (list.children.filter fun c => isModifierWord c.kind).getLast? with
    | none =>
      refine absurd ?_ hwords
      show (list.children.map (·.kind)).filter isModifierWord = []
      rw [List.filter_map]
      exact List.map_eq_nil_iff.mpr (List.getLast?_eq_none_iff.mp hlast)
    | some word =>
      refine ⟨word, ?_, ?_, ?_⟩
      · rw [lastKeyword?, hmodifiers, Option.bind_some, hlast]
      · have hword : word ∈ list.children :=
          (List.mem_filter.mp (List.mem_of_getLast? hlast)).1
        exact Node.mem_preorder_of_mem_children hword (Node.mem_preorder_of_mem_children
          (List.mem_of_find?_eq_some hlist) hdeclared.inTree)
      · simp only [Table.spliceFor, h.notStatic, hnode, hmodifiers, hlast, Option.map_some,
          Bool.false_eq_true, if_false]

/-! ## promoted methods -/

theorem Passes.promotable {visits : List ClassId} {st : AnalysisState} (h : t.Passes visits st) :
    ∀ o ∈ st.analysis.outcomes, t.Promotable o.method := by
  refine h.induction (P := fun st => ∀ o ∈ st.analysis.outcomes, t.Promotable o.method)
    (fun _ _ ho => absurd ho List.not_mem_nil) ?_ ?_
  · intro c st st' hst henter o ho
    obtain ⟨verdicts, hclassified, hsettled⟩ := Analysis.enter_ok henter
    rw [hsettled] at ho
    rcases List.mem_append.mp ho with hold | hnew
    · exact hst o hold
    · obtain ⟨v, hv, rfl⟩ := List.mem_map.mp hnew
      refine promotable_of_mem_candidates (c := c) ?_
      rw [← hclassified.methods]
      exact List.mem_map_of_mem hv
  · intro c st st' hst hleave
    rw [(Analysis.leave_ok hleave).1]
    exact hst

theorem splices_of_promotable (hsound : t.Sound) {methods : List MethodId}
    (h : ∀ m ∈ methods, t.Promotable m) :
    ((t.splices methods).map fun s => some s.1.offset) =
        methods.map (fun m => (t.lastKeyword? m).map (·.stop)) ∧
      ∀ s ∈ t.splices methods, s.1.text = Splice.behind ∧
        ∃ word ∈ t.source.root.preorder, s.1.offset = word.stop := by
  induction methods with
  | nil => exact ⟨rfl, fun s hs => absurd hs List.not_mem_nil⟩
  | cons m methods ih =>
    obtain ⟨word, hword, htree, hsplice⟩ := (h m List.mem_cons_self).spliceFor hsound
    obtain ⟨hoffsets, htexts⟩ := ih fun m' hm' => h m' (List.mem_cons_of_mem _ hm')
    have hcons : t.splices (m :: methods) =
        (⟨word.stop, Splice.behind⟩, m) :: t.splices methods := by
      rw [splices, List.filterMap_cons, hsplice]
      rfl
    rw [hcons, List.map_cons, List.map_cons, hoffsets, hword]
    refine ⟨rfl, fun s hs => ?_⟩
    rcases List.mem_cons.mp hs with rfl | hs
    · exact ⟨rfl, word, htree, rfl⟩
    · exact htexts s hs

/-- a promotion cuts behind the last keyword of each method, once for each -/
theorem weaves_of_promote (hsound : t.Sound) {methods : List MethodId} {code : String}
    {j j' : Journal} (hmethods : ∀ m ∈ methods, t.Promotable m)
    (hwithin : ∀ n ∈ t.source.root.preorder, n.stop ≤ t.source.bytes.toList.length)
    (h : t.promote methods j = .ok code j') :
    ∃ cuts : List Nat,
      (cuts.map some).Perm (methods.map fun m => (t.lastKeyword? m).map (·.stop)) ∧
        Splice.Weaves (Utf8.encode " static") cuts t.source.bytes.toList (Utf8.encode code) := by
  obtain ⟨hoffsets, hsplices⟩ := splices_of_promotable hsound hmethods
  have hordered : ∀ s ∈ (Splice.ordered (t.splices methods)).map (·.1), s.text = Splice.behind ∧
      ∃ word ∈ t.source.root.preorder, s.offset = word.stop := by
    intro s hs
    obtain ⟨spliced, hspliced, rfl⟩ := List.mem_map.mp hs
    exact hsplices spliced ((Splice.ordered_perm _).mem_iff.mp hspliced)
  refine ⟨_, ?_, promote_ok h ▸ Splice.weaves_foldl_insert (Splice.descends_ordered _)
    (fun s hs => ?_) (fun s hs => (hordered s hs).1)⟩
  · rw [← hoffsets, List.map_reverse, List.map_map, List.map_map]
    exact (List.reverse_perm _).trans ((Splice.ordered_perm _).map _)
  · obtain ⟨word, hword, hoffset⟩ := (hordered s hs).2
    exact hoffset ▸ hwithin word hword

end Table

namespace Refactoring

variable {j j' : Journal} {done : Stages} {code : String} {tree : ParseTree}

/-! ## how a run ends -/

theorem analyzeStage_ok {t : Table} {analysis : Analysis} (h : analyzeStage t j = .ok analysis j') :
    ∃ st, t.analyze { scopes := t.scopes, journal := j } = .ok () st ∧ analysis = st.analysis ∧ j' = st.journal := by
  unfold analyzeStage at h
  cases hrun : t.analyze { scopes := t.scopes, journal := j } with
  | ok _ st =>
    rw [EStateM.run, hrun] at h
    cases h
    exact ⟨st, rfl, rfl, rfl⟩
  | error fault st =>
    rw [EStateM.run, hrun] at h
    cases h

theorem stages_ok {source : SourceUnit} (h : stages source j = .ok done j') :
    Table.ofSource source = .ok done.table ∧
      (∃ j₁ st, done.table.analyze { scopes := done.table.scopes, journal := j₁ } = .ok () st ∧
        done.analysis = st.analysis) ∧
      ∃ j₂ j₃, done.table.promote done.analysis.promoted j₂ = .ok done.code j₃ := by
  obtain ⟨_, _, _, h⟩ := Run.of_bind_ok h
  cases hsource : Table.ofSource source with
  | error fault =>
    rw [hsource] at h
    cases h
  | ok table =>
    rw [hsource] at h
    obtain ⟨_, _, hpure, h⟩ := Run.of_bind_ok h
    cases hpure
    obtain ⟨_, _, _, h⟩ := Run.of_bind_ok h
    obtain ⟨_, _, _, h⟩ := Run.of_bind_ok h
    obtain ⟨analysis, _, hanalyzed, h⟩ := Run.of_bind_ok h
    obtain ⟨_, _, _, h⟩ := Run.of_bind_ok h
    obtain ⟨_, _, _, h⟩ := Run.of_bind_ok h
    obtain ⟨code, _, hpromoted, h⟩ := Run.of_bind_ok h
    cases h
    obtain ⟨st, hrun, hanalysis, _⟩ := analyzeStage_ok hanalyzed
    exact ⟨rfl, ⟨_, st, hrun, hanalysis⟩, _, _, hpromoted⟩

/-- a run stops at the check or in a stage, or comes through all stages -/
theorem run_spec {strict : Bool} {r : RunResult} (h : run strict code tree = .ok (r, j)) :
    (∃ message, r = (failure strict code message (opening strict)).1) ∨
      tree.hasErrors = false ∧
        ((∃ message fault after, stages (.ofText code tree) (opening strict).endPhase = .error fault after ∧
            r = (failure strict code message (after.debug "Internal error")).1) ∨
          ∃ done after, stages (.ofText code tree) (opening strict).endPhase = .ok done after ∧
            r = (success done after).1) := by
  unfold run at h
  cases hcheck : (SourceUnit.ofText code tree).check with
  | error fault =>
    rw [hcheck] at h
    cases fault with
    | syntaxError e =>
      injection h with h
      exact .inl ⟨_, congrArg Prod.fst h.symm⟩
    | _ => cases h
  | ok source =>
    rw [hcheck] at h
    obtain ⟨rfl, hsound⟩ := SourceUnit.check_ok hcheck
    refine .inr ⟨hsound, ?_⟩
    cases hstages : stages (.ofText code tree) (opening strict).endPhase with
    | ok done after =>
      simp only [EStateM.run, hstages] at h
      injection h with h
      exact .inr ⟨done, after, rfl, congrArg Prod.fst h.symm⟩
    | error fault after =>
      simp only [EStateM.run, hstages] at h
      injection h with h
      exact .inl ⟨_, fault, after, rfl, congrArg Prod.fst h.symm⟩

theorem run_cases {strict : Bool} {r : RunResult} (h : run strict code tree = .ok (r, j)) :
    (∃ message before, r = (failure strict code message before).1) ∨
      ∃ done before after, stages (.ofText code tree) before = .ok done after ∧
        r = (success done after).1 := by
  rcases run_spec h with ⟨_, hr⟩ | ⟨-, ⟨_, _, _, _, hr⟩ | ⟨done, after, hdone, hr⟩⟩
  · exact .inl ⟨_, _, hr⟩
  · exact .inl ⟨_, _, hr⟩
  · exact .inr ⟨done, _, after, hdone, hr⟩

/-! ## the text after a run -/

theorem failure_result (strict : Bool) (code message : String) (j : Journal) :
    let r := (failure strict code message j).1
    r.errors ≠ [] ∧ r.code = code ∧ r.promoted = [] ∧ r.retained = [] ∧ r.success = !strict := by
  cases strict with
  | false => exact ⟨List.cons_ne_nil _ _, rfl, rfl, rfl, rfl⟩
  | true => exact ⟨List.cons_ne_nil _ _, rfl, rfl, rfl, rfl⟩

theorem errors_of_changed {strict : Bool} {r : RunResult} (h : run strict code tree = .ok (r, j))
    (hchanged : r.changed = true) : r.errors = [] := by
  rcases run_cases h with ⟨message, before, rfl⟩ | ⟨done, before, after, hstages, rfl⟩
  · rw [RunResult.changed, (failure_result strict code message before).2.2.1] at hchanged
    cases hchanged
  · rfl

theorem promotable_of_stages {source : SourceUnit}
    (h : stages source j = .ok done j') : ∀ m ∈ done.analysis.promoted, done.table.Promotable m := by
  obtain ⟨_, ⟨j₁, st, hanalyzed, hanalysis⟩, _⟩ := stages_ok h
  intro m hm
  obtain ⟨o, ho, rfl⟩ := List.mem_map.mp hm
  refine (Table.passes_of_visits hanalyzed).promotable o ?_
  exact hanalysis ▸ (List.mem_filter.mp ho).1

theorem weaves_of_stages (h : stages (.ofText code tree) j = .ok done j')
    (within : ∀ n ∈ tree.root.preorder, n.stop ≤ (Utf8.encode code).length) : ∃ cuts : List Nat,
      (cuts.map some).Perm (done.analysis.promoted.map fun m => (done.table.lastKeyword? m).map (·.stop)) ∧
      Splice.Weaves (Utf8.encode " static") cuts (Utf8.encode code) (Utf8.encode done.code) := by
  obtain ⟨hbuilt, _, _, _, hpromoted⟩ := stages_ok h
  have hsource := Table.source_of_ofSource hbuilt
  have hwoven := Table.weaves_of_promote (Table.sound_of_ofSource hbuilt) (promotable_of_stages h)
    (by rw [hsource]; exact within) hpromoted
  rw [hsource] at hwoven
  exact hwoven

/-- no cut, no change; a cut makes the text longer -/
theorem eq_iff_of_weaves {out : String} {cuts : List Nat}
    (h : Splice.Weaves (Utf8.encode " static") cuts (Utf8.encode code) (Utf8.encode out)) :
    out = code ↔ cuts = [] := by
  have hlength := h.length
  have hword : (Utf8.encode " static").length = 7 := by decide +kernel
  constructor
  · intro hsame
    rw [hsame, hword] at hlength
    exact List.length_eq_zero_iff.mp (by omega)
  · rintro rfl
    exact Utf8.encode_injective h.eq_of_nil

/-- what a run without errors has promoted, and where it has cut the text for that -/
theorem cuts_of_run {strict : Bool} {r : RunResult} (h : run strict code tree = .ok (r, j)) (herrors : r.errors = [])
    (within : ∀ n ∈ tree.root.preorder, n.stop ≤ (Utf8.encode code).length) :
    ∃ (t : Table) (st : AnalysisState) (j₀ : Journal) (cuts : List Nat),
      Table.ofSource (.ofText code tree) = .ok t ∧ t.analyze { scopes := t.scopes, journal := j₀ } = .ok () st ∧
      r.promoted = st.analysis.promoted.map (fun m =>
        ⟨t.displayName m.owner, (t.method m).name, (t.method m).line⟩) ∧
      (cuts.map some).Perm (st.analysis.promoted.map fun m => (t.lastKeyword? m).map (·.stop)) ∧
      Splice.Weaves (Utf8.encode " static") cuts (Utf8.encode code) (Utf8.encode r.code) := by
  rcases run_cases h with ⟨message, before, rfl⟩ | ⟨done, before, after, hstages, rfl⟩
  · exact absurd herrors (failure_result strict code message before).1
  · obtain ⟨cuts, hcuts, hwoven⟩ := weaves_of_stages hstages within
    obtain ⟨hbuilt, ⟨j₀, st, hanalyzed, hanalysis⟩, _⟩ := stages_ok hstages
    rw [hanalysis] at hcuts
    exact ⟨done.table, st, j₀, cuts, hbuilt, hanalyzed, hanalysis ▸ rfl, hcuts, hwoven⟩

theorem run_cuts_behind_keywords {strict : Bool} {code : String} {tree : ParseTree}
    {r : RunResult} {j : Journal} (h : run strict code tree = .ok (r, j))
    (within : ∀ n ∈ tree.root.preorder, n.stop ≤ (Utf8.encode code).length) :
    (r.errors ≠ [] → r.code = code ∧ r.promoted = [] ∧ r.retained = [] ∧ r.success = !strict) ∧
      (r.errors = [] → r.success = true ∧ ∃ (t : Table) (st : AnalysisState) (j₀ : Journal)
        (cuts : List Nat), Table.ofSource (.ofText code tree) = .ok t ∧
        t.analyze { scopes := t.scopes, journal := j₀ } = .ok () st ∧
        r.promoted = st.analysis.promoted.map (fun m =>
          ⟨t.displayName m.owner, (t.method m).name, (t.method m).line⟩) ∧
        (cuts.map some).Perm
          (st.analysis.promoted.map fun m => (t.lastKeyword? m).map (·.stop)) ∧
        Splice.Weaves (Utf8.encode " static") cuts (Utf8.encode code) (Utf8.encode r.code)) ∧
      (r.changed = true ↔ r.code ≠ code) := by
  rcases run_cases h with ⟨message, before, rfl⟩ | ⟨done, before, after, hstages, rfl⟩
  · obtain ⟨herrors, hclosed⟩ := failure_result strict code message before
    refine ⟨fun _ => hclosed, fun hnone => absurd hnone herrors, ?_⟩
    rw [RunResult.changed, hclosed.2.1, hclosed.1]
    exact ⟨fun hchanged => absurd hchanged Bool.false_ne_true, fun hne => absurd rfl hne⟩
  · obtain ⟨t, st, j₀, cuts, hbuilt, hanalyzed, hpromoted, hcuts, hwoven⟩ := cuts_of_run h rfl within
    refine ⟨fun hsome => absurd rfl hsome,
      fun _ => ⟨rfl, t, st, j₀, cuts, hbuilt, hanalyzed, hpromoted, hcuts, hwoven⟩, ?_⟩
    have hlength : cuts.length = st.analysis.promoted.length := by
      simpa only [List.length_map] using hcuts.length_eq
    rw [ne_eq, eq_iff_of_weaves hwoven, ← List.length_eq_zero_iff, hlength, List.length_eq_zero_iff,
      RunResult.changed, Bool.not_eq_true', List.isEmpty_eq_false_iff, hpromoted]
    exact not_congr List.map_eq_nil_iff

/-- `class É { private final @Ü void f() { } private void g() { f(); } }` -/
def accentedText : String :=
  "class É \x7b private final @Ü void f() \x7b \x7d private void g() \x7b f(); \x7d \x7d"

def accentedTree : ParseTree where
  root :=
    ⟨"program", true, false, 0, 69, none, [
      ⟨"class_declaration", true, false, 0, 69, none, [
        ⟨"identifier", true, false, 6, 8, some "name", []⟩,
        ⟨"class_body", true, false, 9, 69, some "body", [
          ⟨"method_declaration", true, false, 11, 41, none, [
            ⟨"modifiers", true, false, 11, 28, none, [
              ⟨"private", false, false, 11, 18, none, []⟩, ⟨"final", false, false, 19, 24, none, []⟩,
              ⟨"marker_annotation", true, false, 25, 28, none, [
                ⟨"identifier", true, false, 26, 28, some "name", []⟩]⟩]⟩,
            ⟨"void_type", true, false, 29, 33, some "type", []⟩, ⟨"identifier", true, false, 34, 35, some "name", []⟩,
            ⟨"formal_parameters", true, false, 35, 37, some "parameters", []⟩,
            ⟨"block", true, false, 38, 41, some "body", []⟩]⟩,
          ⟨"method_declaration", true, false, 42, 67, none, [
            ⟨"modifiers", true, false, 42, 49, none, [
              ⟨"private", false, false, 42, 49, none, []⟩]⟩,
            ⟨"void_type", true, false, 50, 54, some "type", []⟩, ⟨"identifier", true, false, 55, 56, some "name", []⟩,
            ⟨"formal_parameters", true, false, 56, 58, some "parameters", []⟩,
            ⟨"block", true, false, 59, 67, some "body", [
              ⟨"expression_statement", true, false, 61, 65, none, [
                ⟨"method_invocation", true, false, 61, 64, none, [
                  ⟨"identifier", true, false, 61, 62, some "name", []⟩,
                  ⟨"argument_list", true, false, 62, 64, some "arguments", []⟩]⟩]⟩]⟩]⟩]⟩]⟩]⟩

def accentedRewritten : String :=
  "class É \x7b private final static @Ü void f() \x7b \x7d " ++
    "private static void g() \x7b f(); \x7d \x7d"

/-- the word goes behind the keyword, not behind the annotation -/
theorem accented_cuts_behind_keywords :
    ∃ r j, run true accentedText accentedTree = .ok (r, j) ∧ r.code = accentedRewritten ∧
      r.success = true ∧ r.changed = true ∧ r.code ≠ accentedText ∧
      ∃ cuts, cuts.length = 2 ∧ Splice.Weaves (Utf8.encode " static") cuts
        (Utf8.encode accentedText) (Utf8.encode r.code) := by
  have hevaluated : ((run true accentedText accentedTree).toOption.any fun done =>
      done.1.errors == [] && done.1.code == accentedRewritten && done.1.promoted.length == 2) =
        true := by
    -- a merge sort does not evaluate, an insertion sort does
    simp only [run, stages, Table.promote, Splice.ordered_eq]
    decide +kernel
  obtain ⟨⟨r, j⟩, hrun, hresult⟩ := Run.of_toOption_any hevaluated
  simp only [Bool.and_eq_true, beq_iff_eq] at hresult
  obtain ⟨⟨herrors, hcode⟩, hpromoted⟩ := hresult
  obtain ⟨_, hrewritten, hchanged⟩ := run_cuts_behind_keywords hrun (by decide +kernel)
  obtain ⟨hsuccess, t, st, j₀, cuts, _, _, hmethods, hcuts, hwoven⟩ := hrewritten herrors
  have hne : r.code ≠ accentedText := hcode ▸ by decide
  refine ⟨r, j, hrun, hcode, hsuccess, hchanged.mpr hne, hne, cuts, ?_, hwoven⟩
  have hlength := hcuts.length_eq
  rw [List.length_map, List.length_map] at hlength
  rw [hlength, ← hpromoted, hmethods, List.length_map]

end Refactoring

end StaticPromotion
