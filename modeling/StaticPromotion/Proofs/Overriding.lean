import StaticPromotion.Proofs.Confluence

/-!
# Final methods that override

A candidate cannot be overridden: it is private or final. Nothing asks whether it overrides a method itself. A final method may,
and once it is static the unit is broken, as a static method may not hide an instance method.

* `Table.overrides m`              the method replaces one that its class inherits from a supertype in the unit, or from the root
                                   of all classes; a private method never does;
* `Table.final_override_promoted`  two classes of which the second overrides a method of the first, and is promoted;
* `Table.overriding_promoted_iff`  so what overrides is promoted exactly if it is attainable.
-/

namespace StaticPromotion

/-! ## methods that override -/

def Method.isPrivate (m : Method) : Bool :=
  m.modifiers.contains "private"

/-- a method that a class below may override -/
def Method.isInheritable (m : Method) : Bool :=
  !m.isPrivate && !m.isStatic && !m.isConstructor

def Method.sameSignature (m m' : Method) : Bool :=
  m.name == m'.name && m.paramTypes == m'.paramTypes

/-- the methods of the root of all classes that a class may redefine -/
def rootSignatures : List (String × List String) :=
  [("toString", []), ("hashCode", []), ("finalize", []), ("clone", []), ("equals", ["Object"]),
    ("equals", ["java.lang.Object"])]

namespace Table

variable {t : Table} {source : SourceUnit}

/-- a proper supertype in the unit declares an instance method with the signature of `m` -/
def overridesInUnit (t : Table) (m : MethodId) : Bool :=
  (t.hierarchy m.owner).any fun k => k != m.owner && (t.decl k).methods.any fun inherited =>
    inherited.isInheritable && inherited.sameSignature (t.method m)

def overridesRoot (t : Table) (m : MethodId) : Bool :=
  rootSignatures.contains ((t.method m).name, (t.method m).paramTypes)

def overrides (t : Table) (m : MethodId) : Bool :=
  !(t.method m).isPrivate && (t.overridesInUnit m || t.overridesRoot m)

/-- what overrides is not private, so as a candidate it is final -/
theorem Promotable.final_of_overrides {m : MethodId} (h : t.Promotable m)
    (hoverrides : t.overrides m = true) : (t.method m).modifiers.contains "final" = true := by
  have hprivate : (t.method m).isPrivate = false := by
    rw [overrides, Bool.and_eq_true, Bool.not_eq_true'] at hoverrides
    exact hoverrides.1
  have hfixed := h.nonOverridable
  rw [Method.isNonOverridable, Bool.or_eq_true] at hfixed
  refine hfixed.resolve_left fun hcontains => ?_
  rw [Method.isPrivate, hcontains] at hprivate
  cases hprivate

theorem Attainable.promotable {m : MethodId} (h : t.Attainable m) : t.Promotable m := by
  obtain ⟨clear, _⟩ := h
  exact promotable_of_mem_candidates clear.1

/-! ## one that is promoted -/

/-- `class A { void f() { } } class B extends A { final void f() { } }` -/
def finalOverride : SourceUnit :=
  .ofText "class A \x7b void f() \x7b \x7d \x7d class B extends A \x7b final void f() \x7b \x7d \x7d" ⟨
    ⟨"program", true, false, 0, 65, none, [
      ⟨"class_declaration", true, false, 0, 24, none, [
        ⟨"class", false, false, 0, 5, none, []⟩, ⟨"identifier", true, false, 6, 7, some "name", []⟩,
        ⟨"class_body", true, false, 8, 24, some "body", [
          ⟨"method_declaration", true, false, 10, 22, none, [
            ⟨"void_type", true, false, 10, 14, some "type", []⟩, ⟨"identifier", true, false, 15, 16, some "name", []⟩,
            ⟨"formal_parameters", true, false, 16, 18, some "parameters", []⟩,
            ⟨"block", true, false, 19, 22, some "body", []⟩]⟩]⟩]⟩,
      ⟨"class_declaration", true, false, 25, 65, none, [
        ⟨"class", false, false, 25, 30, none, []⟩, ⟨"identifier", true, false, 31, 32, some "name", []⟩,
        ⟨"superclass", true, false, 33, 42, some "superclass", [
          ⟨"extends", false, false, 33, 40, none, []⟩, ⟨"type_identifier", true, false, 41, 42, none, []⟩]⟩,
        ⟨"class_body", true, false, 43, 65, some "body", [
          ⟨"method_declaration", true, false, 45, 63, none, [
            ⟨"modifiers", true, false, 45, 50, none, [
              ⟨"final", false, false, 45, 50, none, []⟩]⟩,
            ⟨"void_type", true, false, 51, 55, some "type", []⟩, ⟨"identifier", true, false, 56, 57, some "name", []⟩,
            ⟨"formal_parameters", true, false, 57, 59, some "parameters", []⟩,
            ⟨"block", true, false, 60, 63, some "body", []⟩]⟩]⟩]⟩]⟩, none⟩

theorem final_override_promoted :
    ∃ t st, ofSource finalOverride = .ok t ∧ t.analyze { scopes := t.scopes } = .ok () st ∧
      t.displayName 1 = "B" ∧ (t.method ⟨1, 0⟩).isPrivate = false ∧ t.hierarchy 1 = [1, 0] ∧
      t.overrides ⟨1, 0⟩ = true ∧ st.analysis.promoted = [⟨1, 0⟩] := by
  have hcheck : (ofSource finalOverride).toOption.any (fun t => t.displayName 1 == "B" &&
      ((t.method ⟨1, 0⟩).isPrivate == false && (t.hierarchy 1 == [1, 0] && (t.overrides ⟨1, 0⟩ &&
        (t.stateAfter t.topLevelClasses { scopes := t.scopes }).any fun st =>
          st.analysis.promoted == [⟨1, 0⟩])))) = true := by decide +kernel
  obtain ⟨t, built, hcheck⟩ := Run.of_toOption_any hcheck
  simp only [Bool.and_eq_true, beq_iff_eq] at hcheck
  obtain ⟨hname, hprivate, hhierarchy, hoverrides, hrun⟩ := hcheck
  obtain ⟨st, hrun, hpromoted⟩ := visits_of_stateAfter hrun
  exact ⟨t, st, built, hrun, hname, hprivate, hhierarchy, hoverrides, eq_of_beq hpromoted⟩

/-! ## which are promoted -/

/-- What visits promote although it overrides is final and attainable. In a tree whose static initializers are blocks, and in
which every candidate has a verdict, nothing else keeps it back: some visits promote a method that overrides exactly if one of
the attainable methods does, and so does the analysis of the unit if no candidate calls a method of a later class. -/
theorem overriding_promoted_iff (built : ofSource source = .ok t) :
    (∀ visits st, t.Passes visits st → ∀ m ∈ st.analysis.promoted, t.overrides m = true →
      (t.method m).modifiers.contains "final" = true ∧ t.Attainable m) ∧
    (source.root.hasPlainInitializers = true →
      (∀ c, ∀ m ∈ t.candidates c, ∃ v, t.verdict m = .ok v) →
      (∀ m, t.overrides m = true →
        ((∃ visits st, t.Passes visits st ∧ m ∈ st.analysis.promoted) ↔ t.Attainable m)) ∧
      (t.CallsBack → ∀ j, ∃ st, t.analyze { scopes := t.scopes, journal := j } = .ok () st ∧
        ((∃ m ∈ st.analysis.promoted, t.overrides m = true) ↔
          ∃ m, t.Attainable m ∧ t.overrides m = true))) := by
  refine ⟨fun visits st passes m hm hoverrides => ?_, fun hplain hverdicts => ⟨fun m _ => ⟨?_, fun hm => ?_⟩,
    fun hback j => ?_⟩⟩
  · have hattainable := passes.attainable ((passes.mem_promoted m).mp hm)
    exact ⟨hattainable.promotable.final_of_overrides hoverrides, hattainable⟩
  · rintro ⟨visits, st, passes, hm⟩
    exact passes.attainable ((passes.mem_promoted m).mp hm)
  · obtain ⟨visits, hvisits⟩ := exists_visits_of_attainable built hplain hm
    have hstart : t.ScopesReached (AnalysisState.scopes { scopes := t.scopes }) := .start
    obtain ⟨st, hrun⟩ := stops_return (classifiable_of_verdicts built hplain hverdicts)
      (visits.flatMap t.tour) hstart
    rw [← visits_eq] at hrun
    have passes := passes_of_visits hrun
    exact ⟨visits, st, passes, (passes.mem_promoted m).mpr (hvisits _ st .start hrun)⟩
  · obtain ⟨st, hrun, hall⟩ := exists_analyze built hplain hback hverdicts (j := j)
    refine ⟨st, hrun, ?_, ?_⟩
    · rintro ⟨m, hm, hoverrides⟩
      exact ⟨m, (hall m).2.mp hm, hoverrides⟩
    · rintro ⟨m, hm, hoverrides⟩
      exact ⟨m, (hall m).2.mpr hm, hoverrides⟩

/-- nothing keeps back the method of the second class -/
theorem finalOverride_attainable :
    ∃ t st, ofSource finalOverride = .ok t ∧ t.Passes [0, 1] st ∧ ⟨1, 0⟩ ∈ st.analysis.promoted ∧
      t.overrides ⟨1, 0⟩ = true ∧ t.Attainable ⟨1, 0⟩ ∧
      ∃ st', t.analyze { scopes := t.scopes } = .ok () st' ∧
        ∃ m ∈ st'.analysis.promoted, t.overrides m = true := by
  have hcheck : (ofSource finalOverride).toOption.any (fun t => t.overrides ⟨1, 0⟩ && (t.callsBack &&
      (t.stateAfter [0, 1] { scopes := t.scopes }).any fun st =>
        st.analysis.promoted.contains ⟨1, 0⟩)) = true := by decide +kernel
  obtain ⟨t, built, hcheck⟩ := Run.of_toOption_any hcheck
  simp only [Bool.and_eq_true] at hcheck
  obtain ⟨hoverrides, hback, hvisits⟩ := hcheck
  obtain ⟨st, hvisits, hpromoted⟩ := visits_of_stateAfter hvisits
  have passes := passes_of_visits hvisits
  have hm := List.contains_iff_mem.mp hpromoted
  have hplain : finalOverride.root.hasPlainInitializers = true := by decide +kernel
  obtain ⟨hfinal, hexact⟩ := overriding_promoted_iff built
  obtain ⟨_, hattainable⟩ := hfinal _ st passes _ hm hoverrides
  obtain ⟨_, hruns⟩ := hexact hplain fun c m hm => (verdict_of_callsBack hback hm).imp fun _ h => h.1
  obtain ⟨st', hrun, hiff⟩ := hruns (callsBack_of_verdicts built hplain fun c m hm =>
    verdict_of_callsBack hback hm) {}
  exact ⟨t, st, built, passes, hm, hoverrides, hattainable, st', hrun,
    hiff.mpr ⟨_, hattainable, hoverrides⟩⟩

end Table

end StaticPromotion
