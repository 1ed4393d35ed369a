import StaticPromotion.Proofs.Decoding
import StaticPromotion.Proofs.Guarding
import StaticPromotion.Proofs.Receivers

/-!
# Inspections keep declarations where they stand

An inspection fills levels by the same plans as the pass, and it enters the classes that it meets. Of a class that it comes to, the
static initializers alone are walked in a level that may have been there before.

* `Table.GoesOver n k`          `k` lies beneath `n`, or beneath the body of a class that is found from there;
* `Table.GoesOver.mem_preorder`   it lies beneath `n`, if class-shaped nodes have distinct keys;
* `Subject.Confined`            a region whose walk fills later levels only, and goes on to such regions only;
* `Subject.keeps_walkRegion`    the walk over such code leaves the levels of before as they are;
* `code_keeps_levels`           what code declares stays in it, in the pass and in inspections.
-/

namespace StaticPromotion

open Table

/-! ## nodes that an inspection may come to -/

inductive Table.GoesOver (t : Table) (n : Node) : Node → Prop
  | self : GoesOver t n n
  | child {k c : Node} (before : GoesOver t n k) (mem : c ∈ k.children) : GoesOver t n c
  | body {k body : Node} {c : ClassId} (before : GoesOver t n k) (shaped : k.isClassShaped = true)
      (found : t.classFor k = some c) (hasBody : (t.decl c).body = some body) : GoesOver t n body

namespace Table

variable {t : Table} {n k : Node}

theorem GoesOver.trans {m : Node} (h : t.GoesOver n k) (h' : t.GoesOver k m) : t.GoesOver n m := by
  induction h' with
  | self => exact h
  | child _ mem ih => exact ih.child mem
  | body _ shaped found hasBody ih => exact ih.body shaped found hasBody

theorem goesOver_of_mem_preorder (h : k ∈ n.preorder) : t.GoesOver n k :=
  Node.forall_mem_preorder (fun _ _ hp hc => hp.child hc) .self h

theorem GoesOver.mem_preorder {source : SourceUnit} (built : ofSource source = .ok t)
    (hkeys : source.root.HasDistinctKeys) (hn : n ∈ source.root.preorder) (h : t.GoesOver n k) :
    k ∈ n.preorder := by
  induction h with
  | self => exact Node.mem_preorder_self n
  | child _ mem ih => exact Node.mem_preorder_of_mem_children mem ih
  | @body k body c _ shaped found hasBody ih =>
    have henters : k.Enters (t.decl c).body := by
      refine (sound_of_ofSource built).enters_of_classFor ?_ ?_ shaped found
      · rw [source_of_ofSource built]
        exact hkeys
      · rw [source_of_ofSource built]
        exact Node.mem_preorder_trans ih hn
    rw [hasBody] at henters
    exact Node.mem_preorder_of_mem_children (Node.mem_of_enters henters) ih

/-- declarations stand among statements and members wherever an inspection comes to -/
def Tidy (t : Table) (n : Node) : Prop :=
  ∀ k, t.GoesOver n k → k.isSeated = true

theorem Tidy.of_goesOver (h : t.Tidy n) (hk : t.GoesOver n k) : t.Tidy k :=
  fun m hm => h m (hk.trans hm)

theorem Tidy.child (h : t.Tidy n) (hk : k ∈ n.children) : t.Tidy k :=
  h.of_goesOver (.child .self hk)

theorem Tidy.of_mem_preorder (h : t.Tidy n) (hk : k ∈ n.preorder) : t.Tidy k :=
  h.of_goesOver (goesOver_of_mem_preorder hk)

end Table

/-! ## walks that keep levels -/

namespace Subject

/-- a region that leaves the levels of `base` as they are -/
def Confined (t : Table) (base : Scopes) : CodeRegion → Prop
  | .code n sc => t.Tidy n ∧ (base.frames.size ≤ sc ∨ n.declaresForward = false)
  | .body c => ∀ body, (t.decl c).body = some body → t.Tidy body

variable {t : Table} {base : Scopes} {n : Node} {sc : ScopeId}

theorem confined_class {c : ClassId} (h : t.Tidy n) (hshaped : n.isClassShaped = true)
    (hfound : t.classFor n = some c) : Confined t base (.body c) :=
  fun _ hbody => h.of_goesOver (.body .self hshaped hfound hbody)

theorem confined_part {c : Node} (h : t.Tidy n) (hblock : n.construct.hasStatements = false)
    (hbody : n.isClassBody = false) (hc : c ∈ n.children) (sc : ScopeId) : Confined t base (.code c sc) :=
  ⟨h.child hc, .inr (Node.quiet_of_isSeated (h n .self) hc hblock fun _ => hbody)⟩

theorem goes_of_tidy (h : t.Tidy n) {step : Step} (hof : step.Of n) :
    step.Goes t (base.frames.size ≤ ·) (Confined t base) := by
  cases step with
  | visit part place =>
    exact fun sc hsc => ⟨h.of_mem_preorder (Node.IsBelow.mem_preorder hof (Node.mem_preorder_self n)), .inl hsc⟩
  | localClass declaration =>
    obtain ⟨rfl, hconstruct⟩ := hof
    exact fun _ => confined_class h (Node.isClassShaped_of_construct (.inr hconstruct))
  | anonymousClass creation body =>
    obtain ⟨rfl, hconstruct, _⟩ := hof
    exact fun _ => confined_class h (Node.isClassShaped_of_construct (.inl hconstruct))
  | enter | declare | caseConstant => trivial

theorem admitted_later (h : t.Tidy n) (hsc : base.frames.size ≤ sc) {steps : List Step}
    (hof : ∀ step ∈ steps, step.Of n) : Step.Admitted t (base.frames.size ≤ ·) (Confined t base) sc steps :=
  ⟨Step.allGuarded_of_free hsc hsc _, fun step hstep => goes_of_tidy h (hof step hstep)⟩

theorem admitted_plan (h : Confined t base (.code n sc)) (hknown : n.construct ≠ .unknown) :
    Step.Admitted t (base.frames.size ≤ ·) (Confined t base) sc n.plan := by
  obtain ⟨htidy, hlater | hquiet⟩ := h
  · exact admitted_later htidy hlater n.of_plan
  · refine ⟨Node.guarded_plan hquiet fun hblock c hc _ => ?_, fun step hstep => goes_of_tidy htidy (n.of_plan step hstep)⟩
    exact confined_part htidy hblock (Node.isClassBody_of_construct hknown) hc

theorem admitted_creation (h : Confined t base (.code n sc)) (hcreation : n.construct = .creation) :
    Step.Admitted t (base.frames.size ≤ ·) (Confined t base) sc
      (n.creationSteps (n.namedChildren.eraseP isQualifier)) := by
  have hnamed : ∀ c ∈ n.namedChildren.eraseP isQualifier, c ∈ n.namedChildren := fun _ hc => List.mem_of_mem_eraseP hc
  refine ⟨Node.guarded_creationSteps fun c hc _ => ?_, fun step hstep =>
    goes_of_tidy h.1 (Node.of_creationSteps hcreation hnamed step hstep)⟩
  refine confined_part h.1 (by rw [hcreation]; rfl) (Node.isClassBody_of_construct ?_)
    (Node.mem_of_mem_namedChildren (hnamed c hc))
  rw [hcreation]
  decide

theorem memberEnters (h : t.Tidy n) (c : ClassId) :
    t.MemberEnters (base.frames.size ≤ ·) (Confined t base) c n where
  declarators _ hsc := admitted_later h hsc (Node.of_declaratorSteps _)
  apart _ hpart _ hsc := ⟨h.child hpart, .inl hsc⟩
  block hkind := ⟨h, .inr (by rw [Node.declaresForward, construct_of_block hkind])⟩
  -- the parts of a static initializer are walked in the level of the class
  staticBlock hkind part hpart := by
    have hstatic := kind_of_staticBlock hkind
    refine confined_part h ?_ ?_ (Node.mem_of_mem_namedChildren hpart) _
    · rw [Node.construct, hstatic]
      rfl
    · rw [Node.isClassBody, hstatic]
      rfl
  cls k hkind hfound := by
    refine confined_class h ?_ hfound
    rw [Node.isClassShaped]
    rcases hkind with hconstant | ⟨flavour, hnested⟩
    · rw [kind_of_constant hconstant]
      rfl
    · rw [ofKind?_of_nested hnested]
      rfl

theorem admission_confined (t : Table) (base : Scopes) : Admission t (base.frames.size ≤ ·) (Confined t base) where
  child {n _ _} h hhands hc := by
    have hdirect : n.construct.hasStatements = false ∧ n.construct ≠ .unknown := by
      unfold Construct.handsOn at hhands
      split at hhands <;> simp_all [Construct.hasStatements]
    exact confined_part h.1 hdirect.1 (Node.isClassBody_of_construct hdirect.2) hc _
  apart h hc hsc := ⟨h.1.child hc, .inl hsc⟩
  plan h _ hknown := admitted_plan h hknown
  creation := admitted_creation
  member h hbody hmember :=
    memberEnters ((h _ hbody).of_mem_preorder
      (Node.mem_preorder_of_mem_memberNodes hmember (Node.mem_preorder_self _))) _

theorem keeps_walkRegion (s : Subject) (depth : Nat) {st : WalkState} (h : Confined s.table st.scopes (.code n sc)) :
    st.scopes.Keeps (Run.after (s.walkRegion depth (.code n sc) st)).scopes := by
  have hruns := (Lockstep.onwards_walkRegion (s := s) (K := .keeping st.scopes.kept_keeps
    (admission_confined s.table st.scopes)) depth).code n sc h
  obtain ⟨hok, herror⟩ := Lockstep.keeping_final hruns (.refl _)
  cases hrun : s.walkRegion depth (.code n sc) st with
  | ok a st' => exact hok a st' hrun
  | error halt st' => exact herror halt st' hrun

end Subject

/-! ## code that keeps its declarations -/

/-- code that declares nothing for the code after it, and in which declarations stand among statements or members only: neither
the pass nor an inspection changes a level that was there before. For the pass, members with classes have to be members of
a class. For an inspection the classes that are found for nodes count as beneath them, as they are if keys are distinct. -/
theorem code_keeps_levels {n : Node} (hquiet : n.declaresForward = false)
    (hseated : ∀ k ∈ n.preorder, k.isSeated = true) :
    ((∀ k ∈ n.preorder, ∀ c ∈ k.children, k.houses c = true) → n.bringsClass = false →
      ∀ depth owner sc (t t' : Table), indexRegion depth (.code owner n sc) t = .ok ((), t') →
        t.scopes.Keeps t'.scopes) ∧
    (∀ (source : SourceUnit) (s : Subject), ofSource source = .ok s.table → source.root.HasDistinctKeys →
      n ∈ source.root.preorder → ∀ depth sc (st : WalkState),
        st.scopes.Keeps (Run.after (s.walkRegion depth (.code n sc) st)).scopes) ∧
    (∀ s : Subject, s.table.Tidy n → ∀ depth sc (st : WalkState),
      st.scopes.Keeps (Run.after (s.walkRegion depth (.code n sc) st)).scopes) := by
  have hwalk : ∀ s : Subject, s.table.Tidy n → ∀ depth sc (st : WalkState),
      st.scopes.Keeps (Run.after (s.walkRegion depth (.code n sc) st)).scopes := fun s htidy depth sc st =>
    s.keeps_walkRegion depth ⟨htidy, .inr hquiet⟩
  refine ⟨fun hhoused hbare depth owner sc t t' hrun => ?_, fun source s built hkeys hn => ?_, hwalk⟩
  · have hindexes := (derives_indexRegion depth).code owner n sc () t' hrun
    exact hindexes.keeps (.inr ⟨hseated, hhoused, hquiet, hbare⟩) (.refl _)
  · exact hwalk s fun k hk => hseated k (hk.mem_preorder built hkeys hn)

/-- a condition that binds `v`, a variable and a class in the block -/
def shelteringIf : Node :=
  ⟨"if_statement", true, false, 35, 105, none, [
    ⟨"parenthesized_expression", true, false, 38, 56, some "condition", [
      ⟨"instanceof_expression", true, false, 39, 55, none, [
        ⟨"identifier", true, false, 39, 40, some "left", []⟩,
        ⟨"type_identifier", true, false, 52, 53, some "right", []⟩,
        ⟨"identifier", true, false, 54, 55, some "name", []⟩]⟩]⟩,
    ⟨"block", true, false, 57, 105, some "consequence", [
      ⟨"local_variable_declaration", true, false, 59, 69, none, [
        ⟨"integral_type", true, false, 59, 62, some "type", []⟩,
        ⟨"variable_declarator", true, false, 63, 68, some "declarator", [
          ⟨"identifier", true, false, 63, 64, some "name", []⟩,
          ⟨"decimal_integer_literal", true, false, 67, 68, some "value", []⟩]⟩]⟩,
      ⟨"class_declaration", true, false, 70, 103, none, [
        ⟨"identifier", true, false, 76, 77, some "name", []⟩,
        ⟨"class_body", true, false, 78, 103, some "body", [
          ⟨"method_declaration", true, false, 80, 101, none, [
            ⟨"integral_type", true, false, 80, 83, some "type", []⟩,
            ⟨"identifier", true, false, 84, 85, some "name", []⟩,
            ⟨"formal_parameters", true, false, 85, 87, some "parameters", []⟩,
            ⟨"block", true, false, 88, 101, some "body", [
              ⟨"return_statement", true, false, 90, 99, none, [
                ⟨"identifier", true, false, 97, 98, none, []⟩]⟩]⟩]⟩]⟩]⟩]⟩]⟩

/-- `class A { int v; int f(Object o) { if (o instanceof B v) { int x = 1;`
`class L { int g() { return x; } } } return v; } }` -/
def shelteringUnit : SourceUnit :=
  .ofText ("class A \x7b int v; int f(Object o) \x7b if (o instanceof B v) \x7b int x = 1; " ++
    "class L \x7b int g() \x7b return x; \x7d \x7d \x7d return v; \x7d \x7d") ⟨
    ⟨"program", true, false, 0, 119, none, [
      ⟨"class_declaration", true, false, 0, 119, none, [
        ⟨"identifier", true, false, 6, 7, some "name", []⟩,
        ⟨"class_body", true, false, 8, 119, some "body", [
          ⟨"field_declaration", true, false, 10, 16, none, [
            ⟨"integral_type", true, false, 10, 13, some "type", []⟩,
            ⟨"variable_declarator", true, false, 14, 15, some "declarator", [
              ⟨"identifier", true, false, 14, 15, some "name", []⟩]⟩]⟩,
          ⟨"method_declaration", true, false, 17, 117, none, [
            ⟨"integral_type", true, false, 17, 20, some "type", []⟩,
            ⟨"identifier", true, false, 21, 22, some "name", []⟩,
            ⟨"formal_parameters", true, false, 22, 32, some "parameters", [
              ⟨"formal_parameter", true, false, 23, 31, none, [
                ⟨"type_identifier", true, false, 23, 29, some "type", []⟩,
                ⟨"identifier", true, false, 30, 31, some "name", []⟩]⟩]⟩,
            ⟨"block", true, false, 33, 117, some "body", [
              shelteringIf,
              ⟨"return_statement", true, false, 106, 115, none, [
                ⟨"identifier", true, false, 113, 114, none, []⟩]⟩]⟩]⟩]⟩]⟩]⟩, none⟩

/-- what is known of the table of `shelteringUnit`: both walks over the condition run through, and open levels -/
def Table.Shelters (t : Table) : Prop :=
  shelteringUnit.root.HasDistinctKeys ∧ shelteringIf ∈ shelteringUnit.root.preorder ∧
  ((indexRegion 20 (.code ⟨0, some ⟨0, 0⟩⟩ shelteringIf 1) t).toOption.any fun done =>
    t.scopes.frames.size < done.2.scopes.frames.size) = true ∧
  t.scopes.frames.size < (Run.after (Subject.walkRegion { table := t, method := ⟨0, 0⟩ } 20
    (.code shelteringIf 1) { scopes := t.scopes })).scopes.frames.size
deriving Decidable

theorem shelteringIf_keeps_levels :
    shelteringIf.declaresForward = false ∧ (∀ k ∈ shelteringIf.preorder, k.isSeated = true) ∧
    (∀ k ∈ shelteringIf.preorder, ∀ c ∈ k.children, k.houses c = true) ∧ shelteringIf.bringsClass = false ∧
    ∃ t t', ofSource shelteringUnit = .ok t ∧ t.Shelters ∧
      indexRegion 20 (.code ⟨0, some ⟨0, 0⟩⟩ shelteringIf 1) t = .ok ((), t') ∧ t.scopes.Keeps t'.scopes ∧
      t.scopes.Keeps (Run.after (Subject.walkRegion { table := t, method := ⟨0, 0⟩ } 20 (.code shelteringIf 1)
        { scopes := t.scopes })).scopes := by
  have hquiet : shelteringIf.declaresForward = false := by decide
  have hseated : ∀ k ∈ shelteringIf.preorder, k.isSeated = true := by decide
  have hhoused : ∀ k ∈ shelteringIf.preorder, ∀ c ∈ k.children, k.houses c = true := by decide
  have hbare : shelteringIf.bringsClass = false := by decide
  have h : (ofSource shelteringUnit).toOption.any (fun t => decide t.Shelters) = true := by
    rw [shelteringUnit, SourceUnit.ofText_eq]
    decide +kernel
  obtain ⟨t, built, hdecided⟩ := Run.of_toOption_any h
  have hshelters : t.Shelters := of_decide_eq_true hdecided
  obtain ⟨hkeys, hmem, hruns, _⟩ := id hshelters
  obtain ⟨⟨_, t'⟩, hrun, _⟩ := Run.of_toOption_any hruns
  obtain ⟨hindex, hinspect, _⟩ := code_keeps_levels hquiet hseated
  exact ⟨hquiet, hseated, hhoused, hbare, t, t', built, hshelters, hrun, hindex hhoused hbare _ _ _ _ _ hrun,
    hinspect shelteringUnit { table := t, method := ⟨0, 0⟩ } built hkeys hmem 20 1 { scopes := t.scopes }⟩

/-- members without a class that they are members of -/
def bareBody : Node :=
  ⟨"class_body", true, false, 22, 37, none, [
    ⟨"class_declaration", true, false, 24, 35, none, [
      ⟨"identifier", true, false, 30, 31, some "name", []⟩, ⟨"class_body", true, false, 32, 35, some "body", []⟩]⟩]⟩

/-- `class A { void f() { ({ class B { } } new C() { }); } }` -/
def bareUnit : SourceUnit :=
  .ofText "class A \x7b void f() \x7b (\x7b class B \x7b \x7d \x7d new C() \x7b \x7d); \x7d \x7d" ⟨
    ⟨"program", true, false, 0, 55, none, [
      ⟨"class_declaration", true, false, 0, 55, none, [
        ⟨"identifier", true, false, 6, 7, some "name", []⟩,
        ⟨"class_body", true, false, 8, 55, some "body", [
          ⟨"method_declaration", true, false, 10, 53, none, [
            ⟨"void_type", true, false, 10, 14, some "type", []⟩, ⟨"identifier", true, false, 15, 16, some "name", []⟩,
            ⟨"formal_parameters", true, false, 16, 18, some "parameters", []⟩,
            ⟨"block", true, false, 19, 53, some "body", [
              ⟨"expression_statement", true, false, 21, 51, none, [
                ⟨"parenthesized_expression", true, false, 21, 50, none, [
                  bareBody,
                  ⟨"object_creation_expression", true, false, 38, 49, none, [
                    ⟨"type_identifier", true, false, 42, 43, some "type", []⟩,
                    ⟨"argument_list", true, false, 43, 45, some "arguments", []⟩,
                    ⟨"class_body", true, false, 46, 49, none, []⟩]⟩]⟩]⟩]⟩]⟩]⟩]⟩]⟩, none⟩

/-- what is known of the table of `bareUnit`: gone over in the level of `A`, the body declares `B` there -/
def Table.Spills (t : Table) : Prop :=
  (t.scopes.frame 1).types = [] ∧
  ((indexRegion 20 (.code ⟨0, none⟩ bareBody 1) t).toOption.any fun done =>
    (done.2.scopes.frame 1).types.map (·.1) == ["B"]) = true
deriving Decidable

/-- Declarations among members escape if the members are gone over as code. -/
theorem bareBody_declares_outside :
    bareBody.declaresForward = false ∧ (∀ k ∈ bareBody.preorder, k.isSeated = true) ∧
    ∃ t t', ofSource bareUnit = .ok t ∧ indexRegion 20 (.code ⟨0, none⟩ bareBody 1) t = .ok ((), t') ∧
      (t.scopes.frame 1).types = [] ∧ (t'.scopes.frame 1).types.map (·.1) = ["B"] := by
  have h : (ofSource bareUnit).toOption.any (fun t => decide t.Spills) = true := by
    rw [bareUnit, SourceUnit.ofText_eq]
    decide +kernel
  obtain ⟨t, built, hdecided⟩ := Run.of_toOption_any h
  obtain ⟨hbefore, hruns⟩ := (of_decide_eq_true hdecided : t.Spills)
  obtain ⟨⟨_, t'⟩, hrun, hafter⟩ := Run.of_toOption_any hruns
  exact ⟨by decide, by decide, t, t', built, hrun, hbefore, beq_iff_eq.mp hafter⟩

end StaticPromotion
