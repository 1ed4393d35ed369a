import StaticPromotion.Proofs.Decoding
import StaticPromotion.Proofs.Edges

/-!
# Stopping at the first use

An inspection stops at the first disqualifying use. An exhaustive one records it and carries on: with the other overloads of
a call, the arguments, the remaining siblings, the parts of a node that cannot be read. Up to the first use the two do the
same, so that the exhaustive one tells the verdict of the other.

* `Foretells first all`       what the walk that carries on says about the one that stops. `keeps` and `carries` are about the
                              former alone: it takes back no finding, and no finding stops it;
* `compositional_foretells`   it holds of the steps and of their composition; `foretells_checkCall` of the calls;
* `foretells_walkMethod`      and so of the inspection of a method;
* `stopping_keeps_verdict`    the verdict, read off the exhaustive inspection.
-/

namespace StaticPromotion

structure Foretells {α : Type} (first all : Walk α) : Prop where
  ok : ∀ st a st', st.findings = [] → first st = .ok a st' → all st = .ok a st' ∧ st'.findings = []
  fault : ∀ st e st', st.findings = [] → first st = .error (.fault e) st' →
    all st = .error (.fault e) st' ∧ st'.findings = []
  access : ∀ st finding st', st.findings = [] → first st = .error (.access finding) st' →
    (Run.after (all st)).findings.head? = some finding
  keeps : ∀ st, st.findings <+: (Run.after (all st)).findings
  carries : ∀ st finding st', all st ≠ .error (.access finding) st'

/-! ## steps -/

section
variable {α β : Type}

theorem Foretells.bind {first all : Walk α} {next next' : α → Walk β} (h : Foretells first all)
    (hnext : ∀ a, Foretells (next a) (next' a)) : Foretells (first >>= next) (all >>= next') where
  ok st b st' hst hrun := by
    obtain ⟨a, st₁, hfirst, hsecond⟩ := Run.of_bind_ok hrun
    obtain ⟨hall, hst₁⟩ := h.ok st a st₁ hst hfirst
    rw [Run.bind_of_ok hall]
    exact (hnext a).ok st₁ b st' hst₁ hsecond
  fault st e st' hst hrun := by
    rcases Run.of_bind_error hrun with hfirst | ⟨a, st₁, hfirst, hsecond⟩
    · obtain ⟨hall, hst'⟩ := h.fault st e st' hst hfirst
      exact ⟨Run.bind_of_error hall, hst'⟩
    · obtain ⟨hall, hst₁⟩ := h.ok st a st₁ hst hfirst
      rw [Run.bind_of_ok hall]
      exact (hnext a).fault st₁ e st' hst₁ hsecond
  access st finding st' hst hrun := by
    rcases Run.of_bind_error hrun with hfirst | ⟨a, st₁, hfirst, hsecond⟩
    · -- the rest of the exhaustive walk only adds to what the first part has recorded
      have hhead := h.access st finding st' hst hfirst
      cases hall : all st with
      | ok a st₁ =>
        rw [hall] at hhead
        rw [Run.bind_of_ok hall]
        obtain ⟨later, hlater⟩ := (hnext a).keeps st₁
        rw [Run.after_ok] at hhead
        rw [← hlater, List.head?_append, hhead, Option.some_or]
      | error halt st₁ =>
        rw [hall] at hhead
        rw [Run.bind_of_error hall]
        exact hhead
    · obtain ⟨hall, hst₁⟩ := h.ok st a st₁ hst hfirst
      rw [Run.bind_of_ok hall]
      exact (hnext a).access st₁ finding st' hst₁ hsecond
  keeps st := by
    have hkeeps := h.keeps st
    cases hall : all st with
    | ok a st₁ =>
      rw [hall] at hkeeps
      rw [Run.bind_of_ok hall]
      exact hkeeps.trans ((hnext a).keeps st₁)
    | error halt st₁ =>
      rw [hall] at hkeeps
      rw [Run.bind_of_error hall]
      exact hkeeps
  carries st finding st' hrun := by
    rcases Run.of_bind_error hrun with hall | ⟨a, st₁, _, hsecond⟩
    · exact h.carries st finding st' hall
    · exact (hnext a).carries st₁ finding st' hsecond

/-- a step that has nothing to do with findings is its own exhaustive counterpart -/
theorem foretells_self {x : Walk α} (hfindings : ∀ st, (Run.after (x st)).findings = st.findings)
    (hnever : ∀ st finding st', x st ≠ .error (.access finding) st') : Foretells x x where
  ok st a st' hst hrun := by
    have hsame := hfindings st
    rw [hrun] at hsame
    exact ⟨hrun, hsame.trans hst⟩
  fault st e st' hst hrun := by
    have hsame := hfindings st
    rw [hrun] at hsame
    exact ⟨hrun, hsame.trans hst⟩
  access st finding st' _ hrun := absurd hrun (hnever st finding st')
  keeps st := ⟨[], by rw [List.append_nil, hfindings st]⟩
  carries := hnever

theorem Plain.foretells {x : Walk α} (h : Plain x) : Foretells x x :=
  foretells_self (fun st => (h st).2.1) fun st => (h st).2.2

end

namespace Subject

theorem foretells_addEdge (m : MethodId) : Foretells (addEdge m) (addEdge m) :=
  foretells_self (fun _ => rfl) fun _ _ _ h => by cases h

section
variable {s : Subject} (hstrict : s.exhaustive = false)
include hstrict

theorem foretells_note (reason : Reason) (n : Node) :
    Foretells (s.note reason n) ((s.inMode true).note reason n) := by
  have hall : ∀ st, (s.inMode true).note reason n st =
      .ok () { st with findings := st.findings ++ [⟨reason, s.table.source.line n⟩] } := fun _ => rfl
  rw [note_eq_throw hstrict]
  refine ⟨fun _ _ _ _ h => ?_, fun _ _ _ _ h => ?_, fun st _ _ hst h => ?_, fun st => ?_, fun st _ _ h => ?_⟩
  · cases h
  · cases h
  · cases h
    rw [hall, Run.after_ok, hst]
    rfl
  · rw [hall]
    exact List.prefix_append _ _
  · rw [hall] at h
    cases h

/-- given ways on that foretell -/
theorem compositional_foretells : s.Compositional true fun first all =>
    ∀ go go', (∀ region, Foretells (go region) (go' region)) → Foretells (first go) (all go') where
  plain hx _ _ _ := hx.foretells
  note reason n _ _ _ := foretells_note hstrict reason n
  go region _ _ hgo := hgo region
  bind h hnext go go' hgo := (h go go' hgo).bind fun a => hnext a go go' hgo

theorem foretells_checkOverload (n : Node) (callee : MethodId) :
    Foretells (s.checkOverload n callee) ((s.inMode true).checkOverload n callee) := by
  unfold checkOverload
  rw [inMode_table]
  dsimp only
  split
  · exact (plain_pure ()).foretells
  · split
    · exact foretells_addEdge callee
    · exact foretells_note hstrict _ n

theorem foretells_checkCall {go go' : Onward} (hgo : ∀ region, Foretells (go region) (go' region))
    (ref : Reference) (name : String) (n : Node) :
    Foretells (s.checkCall ref name n) ((s.inMode true).checkCall ref name n) := by
  have hrule := compositional_foretells hstrict
  cases ref with
  | type | localName | field => exact foretells_note hstrict _ n
  | unresolved _ atClass => exact hrule.noteInherited atClass (fun _ => .callsInherited name) n go go' hgo
  | staticImport _ shadow => exact hrule.noteInherited shadow (.mayBeInherited name) n go go' hgo
  | methods overloads via shadow =>
    by_cases hforeign : s.isForeign (some via) = true
    · rw [checkCall_methods hforeign, checkCall_methods (s := s.inMode true) hforeign]
      refine (hrule.noteInherited shadow _ n go go' hgo).bind fun _ => ?_
      induction overloads with
      | nil => exact (plain_pure ()).foretells
      | cons callee overloads ih => exact (foretells_checkOverload hstrict n callee).bind fun _ => ih
    · have hinside : ∀ mode, (s.inMode mode).checkCall (.methods overloads via shadow) name n = pure () :=
        fun _ => if_neg hforeign
      have hfirst : s.checkCall (.methods overloads via shadow) name n = pure () := if_neg hforeign
      rw [hfirst, hinside]
      exact (plain_pure ()).foretells

/-! ## the walk -/

/-- at every depth, so that it does not matter where the depth ends -/
theorem foretells_walkRegion (depth : Nat) (region : CodeRegion) :
    Foretells (s.walkRegion depth region) ((s.inMode true).walkRegion depth region) := by
  have hrule := compositional_foretells hstrict
  induction depth generalizing region with
  | zero => exact (plain_fault .nestedWithoutEnd).foretells
  | succ depth ih =>
    cases region with
    | code n scope =>
      exact hrule.visitCode n scope
        (fun _ _ name ref go go' hgo => foretells_checkCall hstrict hgo ref name n) _ _ ih
    | body c => exact hrule.visitBody c _ _ ih

theorem foretells_walkMethod (body : Node) :
    Foretells (s.walkMethod body) ((s.inMode true).walkMethod body) := by
  refine plain_get.foretells.bind fun st => (plain_lift _).foretells.bind fun opened => ?_
  exact (plain_setScopes _).foretells.bind fun _ => foretells_walkRegion hstrict _ _

end

end Subject

/-! ## verdicts -/

namespace Table

/-- the exhaustive inspection of a method -/
def survey (t : Table) (scopes : Scopes) (m : MethodId) (body : Node) :
    EStateM.Result Halt WalkState Unit :=
  (Subject.walkMethod { table := t, method := m, exhaustive := true } body).run { scopes }

section
variable {t : Table} (scopes : Scopes) {m : MethodId} {body : Node}
  (hbody : (t.method m).body = some body)
include hbody

/-- the three ways in which an inspection ends, and how the exhaustive one ends then -/
theorem classify_cases :
    (∃ st, t.classify scopes m = .ok (.clear st.edges, st.scopes) ∧ t.survey scopes m body = .ok () st ∧
        st.findings = []) ∨
      (∃ fault st, t.classify scopes m = .error fault ∧
        t.survey scopes m body = .error (.fault fault) st ∧ st.findings = []) ∨
      ∃ finding s', t.classify scopes m = .ok (.access finding, s') ∧
        (Run.after (t.survey scopes m body)).findings.head? = some finding := by
  have hforetells := Subject.foretells_walkMethod (s := { table := t, method := m }) rfl body
  have hclassify : t.classify scopes m =
      Subject.conclude (Subject.walkMethod { table := t, method := m } body { scopes }) := by
    rw [classify, hbody]
    rfl
  rw [hclassify]
  cases hwalk : Subject.walkMethod { table := t, method := m } body { scopes } with
  | ok _ st => exact .inl ⟨st, rfl, hforetells.ok _ _ _ rfl hwalk⟩
  | error halt st =>
    cases halt with
    | fault fault => exact .inr (.inl ⟨fault, st, rfl, hforetells.fault _ _ _ rfl hwalk⟩)
    | access finding => exact .inr (.inr ⟨finding, st.scopes, rfl, hforetells.access _ _ _ rfl hwalk⟩)

theorem access_iff_head (finding : Finding) :
    (∃ s', t.classify scopes m = .ok (.access finding, s')) ↔
      (Run.after (t.survey scopes m body)).findings.head? = some finding := by
  rcases classify_cases scopes hbody with
    ⟨st, hclear, hsurvey, hnone⟩ | ⟨fault, st, hfault, hsurvey, hnone⟩ | ⟨found, s', haccess, hhead⟩
  · simp [hclear, hsurvey, hnone]
  · simp [hfault, hsurvey, hnone]
  · simp [haccess, hhead]

theorem clear_iff_edges (edges : List MethodId) (s' : Scopes) :
    t.classify scopes m = .ok (.clear edges, s') ↔
      ∃ st, t.survey scopes m body = .ok () st ∧ st.findings = [] ∧ st.edges = edges ∧ st.scopes = s' := by
  rcases classify_cases scopes hbody with
    ⟨st, hclear, hsurvey, hnone⟩ | ⟨fault, st, hfault, hsurvey, _⟩ | ⟨found, s₁, haccess, hhead⟩
  · simp [hclear, hsurvey, hnone]
  · simp [hfault, hsurvey]
  · simp only [haccess, Except.ok.injEq, Prod.mk.injEq, reduceCtorEq, false_and, false_iff]
    rintro ⟨st, hsurvey, hnone, _⟩
    simp [hsurvey, hnone] at hhead

theorem fault_iff_fault (fault : Fault) :
    t.classify scopes m = .error fault ↔
      ∃ st, t.survey scopes m body = .error (.fault fault) st ∧ st.findings = [] := by
  rcases classify_cases scopes hbody with
    ⟨st, hclear, hsurvey, _⟩ | ⟨fault', st, hfault, hsurvey, hnone⟩ | ⟨found, s₁, haccess, hhead⟩
  · simp [hclear, hsurvey]
  · rw [hfault, hsurvey]
    constructor
    · rintro ⟨⟩
      exact ⟨st, rfl, hnone⟩
    · rintro ⟨_, hsame, _⟩
      cases hsame
      rfl
  · simp only [haccess, reduceCtorEq, false_iff]
    rintro ⟨st, hsurvey, hnone⟩
    simp [hsurvey, hnone] at hhead

end

theorem isEdge_iff {m : Method} : Subject.isEdge m = true ↔ m.isStatic = false ∧ m.isConstructor = false ∧
    ("private" ∈ m.modifiers ∨ "final" ∈ m.modifiers) := by
  simp only [Subject.isEdge, Method.isNonOverridable, Bool.and_eq_true, Bool.not_eq_true',
    Bool.or_eq_true, List.contains_iff_mem, and_assoc]

/-- The verdict on a method with a body, read off its exhaustive inspection: the first finding if there is one, and
otherwise the edges. Each edge is a method that no subclass can replace, and some call that the inspection comes to binds to
it in a class that is not declared inside. -/
theorem stopping_keeps_verdict (t : Table) (scopes : Scopes) (m : MethodId) (body : Node)
    (hbody : (t.method m).body = some body) :
    let survey := t.survey scopes m body
    (∀ finding st, survey ≠ .error (.access finding) st) ∧
      (∀ finding, (∃ s', t.classify scopes m = .ok (.access finding, s')) ↔
        (Run.after survey).findings.head? = some finding) ∧
      (∀ edges s', t.classify scopes m = .ok (.clear edges, s') ↔
        ∃ st, survey = .ok () st ∧ st.findings = [] ∧ st.edges = edges ∧ st.scopes = s') ∧
      (∀ fault, t.classify scopes m = .error fault ↔
        ∃ st, survey = .error (.fault fault) st ∧ st.findings = []) ∧
      ∀ edges s', t.classify scopes m = .ok (.clear edges, s') → ∀ e ∈ edges,
        (t.method e).isStatic = false ∧ (t.method e).isConstructor = false ∧
          ("private" ∈ (t.method e).modifiers ∨ "final" ∈ (t.method e).modifiers) ∧
          ∃ arguments n name scope st overloads via shadow,
            t.Evaluates scopes m (.call arguments) n name scope st ∧
            t.resolveMethod st.scopes scope name arguments = .methods overloads via shadow ∧
            e ∈ overloads ∧ t.declaredWithin via m = false := by
  intro survey
  refine ⟨?_, access_iff_head scopes hbody, clear_iff_edges scopes hbody, fault_iff_fault scopes hbody, ?_⟩
  · exact (Subject.foretells_walkMethod (s := { table := t, method := m }) rfl body).carries _
  · intro edges s' clear e he
    obtain ⟨hedge, hcall⟩ := exists_call_of_edge clear he
    obtain ⟨hstatic, hconstructor, hmodifiers⟩ := isEdge_iff.mp hedge
    exact ⟨hstatic, hconstructor, hmodifiers, hcall⟩

/-- `class A { int x; private void f() { g(x); k(); } void g(int i) { } private void h() { k(); } private void k() { } }` -/
def twoUses : SourceUnit :=
  .ofText ("class A \x7b int x; private void f() \x7b g(x); k(); \x7d void g(int i) \x7b \x7d " ++
    "private void h() \x7b k(); \x7d private void k() \x7b \x7d \x7d") ⟨
    ⟨"program", true, false, 0, 115, none, [
      ⟨"class_declaration", true, false, 0, 115, none, [
        ⟨"class", false, false, 0, 5, none, []⟩, ⟨"identifier", true, false, 6, 7, some "name", []⟩,
        ⟨"class_body", true, false, 8, 115, some "body", [
          ⟨"\x7b", false, false, 8, 9, none, []⟩,
          ⟨"field_declaration", true, false, 10, 16, none, [
            ⟨"integral_type", true, false, 10, 13, some "type", [
              ⟨"int", false, false, 10, 13, none, []⟩]⟩,
            ⟨"variable_declarator", true, false, 14, 15, some "declarator", [
              ⟨"identifier", true, false, 14, 15, some "name", []⟩]⟩,
            ⟨";", false, false, 15, 16, none, []⟩]⟩,
          ⟨"method_declaration", true, false, 17, 48, none, [
            ⟨"modifiers", true, false, 17, 24, none, [
              ⟨"private", false, false, 17, 24, none, []⟩]⟩,
            ⟨"void_type", true, false, 25, 29, some "type", []⟩, ⟨"identifier", true, false, 30, 31, some "name", []⟩,
            ⟨"formal_parameters", true, false, 31, 33, some "parameters", [
              ⟨"(", false, false, 31, 32, none, []⟩, ⟨")", false, false, 32, 33, none, []⟩]⟩,
            ⟨"block", true, false, 34, 48, some "body", [
              ⟨"\x7b", false, false, 34, 35, none, []⟩,
              ⟨"expression_statement", true, false, 36, 41, none, [
                ⟨"method_invocation", true, false, 36, 40, none, [
                  ⟨"identifier", true, false, 36, 37, some "name", []⟩,
                  ⟨"argument_list", true, false, 37, 40, some "arguments", [
                    ⟨"(", false, false, 37, 38, none, []⟩, ⟨"identifier", true, false, 38, 39, none, []⟩,
                    ⟨")", false, false, 39, 40, none, []⟩]⟩]⟩,
                ⟨";", false, false, 40, 41, none, []⟩]⟩,
              ⟨"expression_statement", true, false, 42, 46, none, [
                ⟨"method_invocation", true, false, 42, 45, none, [
                  ⟨"identifier", true, false, 42, 43, some "name", []⟩,
                  ⟨"argument_list", true, false, 43, 45, some "arguments", [
                    ⟨"(", false, false, 43, 44, none, []⟩, ⟨")", false, false, 44, 45, none, []⟩]⟩]⟩,
                ⟨";", false, false, 45, 46, none, []⟩]⟩,
              ⟨"\x7d", false, false, 47, 48, none, []⟩]⟩]⟩,
          ⟨"method_declaration", true, false, 49, 66, none, [
            ⟨"void_type", true, false, 49, 53, some "type", []⟩, ⟨"identifier", true, false, 54, 55, some "name", []⟩,
            ⟨"formal_parameters", true, false, 55, 62, some "parameters", [
              ⟨"(", false, false, 55, 56, none, []⟩,
              ⟨"formal_parameter", true, false, 56, 61, none, [
                ⟨"integral_type", true, false, 56, 59, some "type", [
                  ⟨"int", false, false, 56, 59, none, []⟩]⟩,
                ⟨"identifier", true, false, 60, 61, some "name", []⟩]⟩,
              ⟨")", false, false, 61, 62, none, []⟩]⟩,
            ⟨"block", true, false, 63, 66, some "body", [
              ⟨"\x7b", false, false, 63, 64, none, []⟩, ⟨"\x7d", false, false, 65, 66, none, []⟩]⟩]⟩,
          ⟨"method_declaration", true, false, 67, 92, none, [
            ⟨"modifiers", true, false, 67, 74, none, [
              ⟨"private", false, false, 67, 74, none, []⟩]⟩,
            ⟨"void_type", true, false, 75, 79, some "type", []⟩, ⟨"identifier", true, false, 80, 81, some "name", []⟩,
            ⟨"formal_parameters", true, false, 81, 83, some "parameters", [
              ⟨"(", false, false, 81, 82, none, []⟩, ⟨")", false, false, 82, 83, none, []⟩]⟩,
            ⟨"block", true, false, 84, 92, some "body", [
              ⟨"\x7b", false, false, 84, 85, none, []⟩,
              ⟨"expression_statement", true, false, 86, 90, none, [
                ⟨"method_invocation", true, false, 86, 89, none, [
                  ⟨"identifier", true, false, 86, 87, some "name", []⟩,
                  ⟨"argument_list", true, false, 87, 89, some "arguments", [
                    ⟨"(", false, false, 87, 88, none, []⟩, ⟨")", false, false, 88, 89, none, []⟩]⟩]⟩,
                ⟨";", false, false, 89, 90, none, []⟩]⟩,
              ⟨"\x7d", false, false, 91, 92, none, []⟩]⟩]⟩,
          ⟨"method_declaration", true, false, 93, 113, none, [
            ⟨"modifiers", true, false, 93, 100, none, [
              ⟨"private", false, false, 93, 100, none, []⟩]⟩,
            ⟨"void_type", true, false, 101, 105, some "type", []⟩,
            ⟨"identifier", true, false, 106, 107, some "name", []⟩,
            ⟨"formal_parameters", true, false, 107, 109, some "parameters", [
              ⟨"(", false, false, 107, 108, none, []⟩, ⟨")", false, false, 108, 109, none, []⟩]⟩,
            ⟨"block", true, false, 110, 113, some "body", [
              ⟨"\x7b", false, false, 110, 111, none, []⟩, ⟨"\x7d", false, false, 112, 113, none, []⟩]⟩]⟩,
          ⟨"\x7d", false, false, 114, 115, none, []⟩]⟩]⟩]⟩, none⟩

/-- what the two inspections of `f` and `h` in `twoUses` record when they carry on -/
def SurveysTwoUses (t : Table) : Prop :=
  ((t.method ⟨0, 0⟩).body.any fun body =>
    (Run.after (t.survey t.scopes ⟨0, 0⟩ body)).findings ==
      [⟨.callsInstanceMethod "A.g", 1⟩, ⟨.readsField "x", 1⟩]) = true ∧
  ((t.method ⟨0, 2⟩).body.any fun body =>
    (Run.value? (t.survey t.scopes ⟨0, 2⟩ body)).isSome &&
      (Run.after (t.survey t.scopes ⟨0, 2⟩ body)).findings == [] &&
      (Run.after (t.survey t.scopes ⟨0, 2⟩ body)).edges == [⟨0, 3⟩]) = true
deriving Decidable

/-- `f` has two uses, and the first is the verdict on it; `h` has none, and an edge to `k`. -/
theorem twoUses_stopping_keeps_verdict :
    ∃ t body, Table.ofSource twoUses = .ok t ∧ (t.method ⟨0, 0⟩).body = some body ∧
      (Run.after (t.survey t.scopes ⟨0, 0⟩ body)).findings =
        [⟨.callsInstanceMethod "A.g", 1⟩, ⟨.readsField "x", 1⟩] ∧
      (∃ s', t.classify t.scopes ⟨0, 0⟩ = .ok (.access ⟨.callsInstanceMethod "A.g", 1⟩, s')) ∧
      ∃ s', t.classify t.scopes ⟨0, 2⟩ = .ok (.clear [⟨0, 3⟩], s') := by
  have h : (Table.ofSource twoUses).toOption.any (fun t => decide t.SurveysTwoUses) = true := by
    rw [twoUses, SourceUnit.ofText_eq]
    decide +kernel
  obtain ⟨t, built, hall⟩ := Run.of_toOption_any h
  obtain ⟨hfirst, hsecond⟩ := of_decide_eq_true hall
  obtain ⟨body, hbody, hfindings⟩ := Option.any_eq_true _ _ |>.mp hfirst
  obtain ⟨body', hbody', hclear⟩ := Option.any_eq_true _ _ |>.mp hsecond
  have hfindings := beq_iff_eq.mp hfindings
  simp only [Bool.and_eq_true, beq_iff_eq] at hclear
  obtain ⟨⟨hran, hnone⟩, hedges⟩ := hclear
  obtain ⟨-, haccess, -⟩ := stopping_keeps_verdict t t.scopes ⟨0, 0⟩ body hbody
  obtain ⟨-, -, hclear, -⟩ := stopping_keeps_verdict t t.scopes ⟨0, 2⟩ body' hbody'
  refine ⟨t, body, built, hbody, hfindings, (haccess _).mpr ?_, ?_⟩
  · rw [hfindings]
    rfl
  · cases hsurvey : t.survey t.scopes ⟨0, 2⟩ body' with
    | ok _ st =>
      rw [hsurvey] at hnone hedges
      exact ⟨st.scopes, (hclear _ _).mpr ⟨st, hsurvey, hnone, hedges, rfl⟩⟩
    | error halt st =>
      rw [hsurvey] at hran
      cases hran

end Table

end StaticPromotion
