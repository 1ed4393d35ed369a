import Mathlib.Data.List.Nodup
import StaticPromotion.Proofs.Decoding
import StaticPromotion.Proofs.Parts

/-!
# What a condition has made sure of

A condition is a boolean formula over tests. Evaluation stops as soon as the outcome is known, so that one outcome can have
come about in many ways. A pattern variable can be used if its test has come out true in all of them, and these are just the
variables that `Node.bindings` lists.

* `Formula`             a condition: `!`, and the two connectives, which differ in the value of the first operand that decides
                        them;
* `Formula.Evaluates`   a short-circuit evaluation, with the tests that were made in it and what they came out as;
* `Node.formula`        how a node is read as a formula. What is no connective is a test, and so is a missing operand;
* `Formula.bound`       the names that an outcome makes sure of, by recursion over the formula. `Node.bindings_eq_bound`;
* `bound_disjoint`      no name is sure for both outcomes;
* `exists_avoiding`     a name that is not listed has an evaluation without it;
* `conditionBindings_iff_always_true`   the names bound by a condition are those that every evaluation has tested.
-/

namespace StaticPromotion

/-! ## formulas -/

inductive Formula (α : Type) where
  | test (a : α)
  | negated (f : Formula α)
  /-- the second operand is evaluated unless the first comes out as `decisive` -/
  | joined (decisive : Bool) (first second : Formula α)

namespace Formula

variable {α β γ : Type}

/-- a short-circuit evaluation with its outcome, and the tests made in it, in order -/
inductive Evaluates : Formula α → Bool → List (α × Bool) → Prop
  | test (a : α) (value : Bool) : Evaluates (.test a) value [(a, value)]
  | negated {f : Formula α} {value : Bool} {run : List (α × Bool)} (operand : Evaluates f value run) :
      Evaluates (.negated f) (!value) run
  | decided {decisive : Bool} {first second : Formula α} {run : List (α × Bool)}
      (left : Evaluates first decisive run) : Evaluates (.joined decisive first second) decisive run
  | passed {decisive value : Bool} {first second : Formula α} {run more : List (α × Bool)}
      (left : Evaluates first (!decisive) run) (right : Evaluates second value more) :
      Evaluates (.joined decisive first second) value (run ++ more)

/-- the tests of a formula, left to right -/
def tests : Formula α → List α
  | .test a => [a]
  | .negated f => f.tests
  | .joined _ first second => first.tests ++ second.tests

/-- the names that an outcome makes sure of, where a test makes sure of names by coming out true -/
def bound (names : α → List β) (outcome : Bool) : Formula α → List β
  | .test a => if outcome then names a else []
  | .negated f => f.bound names (!outcome)
  | .joined decisive first second =>
    if outcome = decisive then [] else first.bound names outcome ++ second.bound names outcome

/-! ## evaluations -/

variable {f first second : Formula α} {outcome decisive : Bool} {run : List (α × Bool)}

theorem exists_evaluates (f : Formula α) (outcome : Bool) : ∃ run, Evaluates f outcome run := by
  induction f generalizing outcome with
  | test a => exact ⟨_, .test a outcome⟩
  | negated f ih =>
    obtain ⟨run, hrun⟩ := ih (!outcome)
    have h := Evaluates.negated hrun
    rw [Bool.not_not] at h
    exact ⟨run, h⟩
  | joined decisive first second ih ih' =>
    obtain ⟨run, hrun⟩ := ih (!decisive)
    obtain ⟨more, hmore⟩ := ih' outcome
    exact ⟨run ++ more, .passed hrun hmore⟩

theorem Evaluates.of_negated (h : Evaluates (.negated f) outcome run) : Evaluates f (!outcome) run := by
  cases h with
  | negated operand =>
    rw [Bool.not_not]
    exact operand

/-- an outcome that the first operand alone does not decide has both operands behind it -/
theorem Evaluates.of_joined (h : Evaluates (.joined decisive first second) outcome run) (hne : outcome ≠ decisive) :
    ∃ before after, run = before ++ after ∧ Evaluates first outcome before ∧ Evaluates second outcome after := by
  cases h with
  | decided left => exact absurd rfl hne
  | passed left right =>
    refine ⟨_, _, rfl, ?_, right⟩
    rw [Bool.eq_not_of_ne hne]
    exact left

theorem Evaluates.mem_tests {value : Bool} {a : α} (h : Evaluates f outcome run) (ha : (a, value) ∈ run) :
    a ∈ f.tests := by
  induction h with
  | test b w =>
    cases List.mem_singleton.mp ha
    exact List.mem_singleton_self a
  | negated _ ih => exact ih ha
  | decided _ ih => exact List.mem_append_left _ (ih ha)
  | passed _ _ ih ih' =>
    rcases List.mem_append.mp ha with hrun | hmore
    · exact List.mem_append_left _ (ih hrun)
    · exact List.mem_append_right _ (ih' hmore)

/-! ## names that are sure -/

variable {names : α → List β} {x : β}

theorem bound_map (g : β → γ) (f : Formula α) (outcome : Bool) :
    f.bound (fun a => (names a).map g) outcome = (f.bound names outcome).map g := by
  induction f generalizing outcome with
  | test a => cases outcome <;> rfl
  | negated f ih => exact ih _
  | joined decisive first second ih ih' =>
    rw [bound, bound]
    by_cases h : outcome = decisive
    · rw [if_pos h, if_pos h]
      rfl
    · rw [if_neg h, if_neg h, ih, ih', List.map_append]

theorem bound_sublist (f : Formula α) (outcome : Bool) : (f.bound names outcome).Sublist (f.tests.flatMap names) := by
  induction f generalizing outcome with
  | test a =>
    rw [tests, List.flatMap_singleton]
    cases outcome with
    | false => exact List.nil_sublist _
    | true => exact .refl _
  | negated f ih => exact ih _
  | joined decisive first second ih ih' =>
    rw [bound, tests, List.flatMap_append]
    by_cases h : outcome = decisive
    · rw [if_pos h]
      exact List.nil_sublist _
    · rw [if_neg h]
      exact (ih outcome).append (ih' outcome)

/-- a name that is listed belongs to a test that every evaluation with that outcome has made, and that came out true -/
theorem exists_test_of_mem_bound (h : x ∈ f.bound names outcome) :
    ∃ a ∈ f.tests, x ∈ names a ∧ ∀ run, Evaluates f outcome run → (a, true) ∈ run := by
  induction f generalizing outcome with
  | test a =>
    cases outcome with
    | false => cases h
    | true =>
      refine ⟨a, List.mem_singleton_self a, h, fun run hrun => ?_⟩
      cases hrun
      exact List.mem_singleton_self _
  | negated f ih =>
    obtain ⟨a, ha, hx, hall⟩ := ih h
    exact ⟨a, ha, hx, fun run hrun => hall run hrun.of_negated⟩
  | joined decisive first second ih ih' =>
    rw [bound] at h
    by_cases hne : outcome = decisive
    · rw [if_pos hne] at h
      cases h
    rw [if_neg hne] at h
    rcases List.mem_append.mp h with hfirst | hsecond
    · obtain ⟨a, ha, hx, hall⟩ := ih hfirst
      refine ⟨a, List.mem_append_left _ ha, hx, fun run hrun => ?_⟩
      obtain ⟨before, after, rfl, hbefore, _⟩ := hrun.of_joined hne
      exact List.mem_append_left _ (hall before hbefore)
    · obtain ⟨a, ha, hx, hall⟩ := ih' hsecond
      refine ⟨a, List.mem_append_right _ ha, hx, fun run hrun => ?_⟩
      obtain ⟨before, after, rfl, _, hafter⟩ := hrun.of_joined hne
      exact List.mem_append_right _ (hall after hafter)

/-- only one of the two outcomes lists anything at all -/
theorem bound_disjoint (h : x ∈ f.bound names outcome) : x ∉ f.bound names (!outcome) := by
  induction f generalizing outcome with
  | test a =>
    cases outcome with
    | false => cases h
    | true => exact List.not_mem_nil
  | negated f ih => exact ih h
  | joined decisive first second _ _ =>
    intro h'
    rw [bound] at h h'
    by_cases hdecided : outcome = decisive
    · rw [if_pos hdecided] at h
      cases h
    · rw [if_pos (Bool.not_eq.mpr hdecided)] at h'
      cases h'

section
variable (hdistinct : (f.tests.flatMap names).Nodup)
include hdistinct

theorem exists_avoiding (h : x ∉ f.bound names outcome) :
    ∃ run, Evaluates f outcome run ∧ ∀ a, (a, true) ∈ run → x ∉ names a := by
  induction f generalizing outcome with
  | test a =>
    refine ⟨_, .test a outcome, fun b hb hx => ?_⟩
    cases List.mem_singleton.mp hb
    exact h hx
  | negated f ih =>
    obtain ⟨run, hrun, havoids⟩ := ih hdistinct h
    have hnegated := Evaluates.negated hrun
    rw [Bool.not_not] at hnegated
    exact ⟨run, hnegated, havoids⟩
  | joined decisive first second ih ih' =>
    rw [tests, List.flatMap_append, List.nodup_append'] at hdistinct
    obtain ⟨hfirst, hsecond, hapart⟩ := hdistinct
    rw [bound] at h
    by_cases hdecided : outcome = decisive
    · subst hdecided
      by_cases hx : x ∈ first.bound names outcome
      · -- then it is not sure for the other outcome of the first operand, nor does it stand in the second
        obtain ⟨run, hrun, havoids⟩ := ih hfirst (bound_disjoint hx)
        obtain ⟨more, hmore⟩ := exists_evaluates second outcome
        refine ⟨run ++ more, .passed hrun hmore, fun a ha hxa => ?_⟩
        rcases List.mem_append.mp ha with hleft | hright
        · exact havoids a hleft hxa
        · have hmem := List.mem_flatMap.mpr ⟨a, hmore.mem_tests hright, hxa⟩
          exact hapart ((bound_sublist first outcome).subset hx) hmem
      · obtain ⟨run, hrun, havoids⟩ := ih hfirst hx
        exact ⟨run, .decided hrun, havoids⟩
    · rw [if_neg hdecided, List.mem_append, not_or] at h
      obtain ⟨run, hrun, havoids⟩ := ih hfirst h.1
      obtain ⟨more, hmore, havoids'⟩ := ih' hsecond h.2
      rw [Bool.eq_not_of_ne hdecided] at hrun
      refine ⟨run ++ more, .passed hrun hmore, fun a ha => ?_⟩
      rcases List.mem_append.mp ha with hleft | hright
      · exact havoids a hleft
      · exact havoids' a hright

/-- what is listed is what every evaluation with that outcome has tested -/
theorem mem_bound_iff : x ∈ f.bound names outcome ↔
    ∃ a ∈ f.tests, x ∈ names a ∧ ∀ run, Evaluates f outcome run → (a, true) ∈ run := by
  refine ⟨exists_test_of_mem_bound, fun htested => ?_⟩
  obtain ⟨a, _, hx, hall⟩ := htested
  by_contra hnot
  obtain ⟨run, hrun, havoids⟩ := exists_avoiding hdistinct hnot
  exact havoids a (hall run hrun) hx

end

end Formula

/-! ## conditions as formulas -/

namespace Node

mutual

/-- a condition; a test is a node, or an operand that is missing -/
def formula : Node → Formula (Option Node)
  | n@⟨kind, _, _, _, _, _, children⟩ =>
    if kind = "parenthesized_expression" ∧ (contents children).length = 1 then formulaOfContent children
    else if kind = "unary_expression" ∧ operatorKind children = "!" then .negated (formulaAt "operand" children)
    else if kind = "binary_expression" ∧ operatorKind children = "&&" then
      .joined false (formulaAt "left" children) (formulaAt "right" children)
    else if kind = "binary_expression" ∧ operatorKind children = "||" then
      .joined true (formulaAt "left" children) (formulaAt "right" children)
    else .test (some n)

/-- of the first child in a field -/
def formulaAt (f : String) : List Node → Formula (Option Node)
  | [] => .test none
  | c :: rest => if inField f c then formula c else formulaAt f rest

/-- of the first child that is no comment -/
def formulaOfContent : List Node → Formula (Option Node)
  | [] => .test none
  | c :: rest => if c.named && !c.isComment then formula c else formulaOfContent rest

end

/-- the identifiers of the variables that an `instanceof` test binds -/
def testVariables (n : Node) : List Node :=
  if n.kind = "instanceof_expression" then
    (n.child? "name").toList ++ ((n.child? "pattern").map patternNames).getD []
  else []

/-- of a test in a condition; a missing operand binds nothing -/
def variablesOf (test : Option Node) : List Node :=
  (test.map testVariables).getD []

mutual

theorem bindings_eq_bound (outcome : Bool) : (n : Node) → bindings outcome n = n.formula.bound variablesOf outcome
  | ⟨kind, named, missing, start, stop, field, children⟩ => by
    have hat := fun f outcome => bindingsAt_eq_bound f outcome children
    have hcontent := bindingsOfContent_eq_bound outcome children
    rw [bindings, formula]
    by_cases hparentheses : kind = "parenthesized_expression"
    · subst hparentheses
      by_cases hone : (contents children).length = 1
      · simp [hone, hcontent]
      · simp [hone, Formula.bound, variablesOf, testVariables]
    by_cases hunary : kind = "unary_expression"
    · subst hunary
      by_cases hoperator : operatorKind children = "!"
      · simp [hoperator, hat, Formula.bound]
      · simp [hoperator, Formula.bound, variablesOf, testVariables]
    by_cases hbinary : kind = "binary_expression"
    · subst hbinary
      by_cases hand : operatorKind children = "&&"
      · cases outcome <;> simp [hand, hat, sharesOutcome, Formula.bound]
      by_cases hor : operatorKind children = "||"
      · cases outcome <;> simp [hor, hat, sharesOutcome, Formula.bound]
      · simp [hand, hor, sharesOutcome, Formula.bound, variablesOf, testVariables]
    · cases outcome <;>
        simp [hparentheses, hunary, hbinary, Formula.bound, variablesOf, testVariables, child?]

theorem bindingsAt_eq_bound (f : String) (outcome : Bool) :
    (cs : List Node) → bindingsAt f outcome cs = (formulaAt f cs).bound variablesOf outcome
  | [] => by
    rw [bindingsAt, formulaAt]
    cases outcome <;> rfl
  | c :: rest => by
    rw [bindingsAt, formulaAt]
    by_cases h : inField f c = true
    · rw [if_pos h, if_pos h]
      exact bindings_eq_bound outcome c
    · rw [if_neg h, if_neg h]
      exact bindingsAt_eq_bound f outcome rest

theorem bindingsOfContent_eq_bound (outcome : Bool) :
    (cs : List Node) → bindingsOfContent outcome cs = (formulaOfContent cs).bound variablesOf outcome
  | [] => by
    rw [bindingsOfContent, formulaOfContent]
    cases outcome <;> rfl
  | c :: rest => by
    rw [bindingsOfContent, formulaOfContent]
    by_cases h : (c.named && !c.isComment) = true
    · rw [if_pos h, if_pos h]
      exact bindings_eq_bound outcome c
    · rw [if_neg h, if_neg h]
      exact bindingsOfContent_eq_bound outcome rest

end

/-- a condition that may be absent; then nothing is known about it -/
def conditionFormula (condition : Option Node) : Formula (Option Node) :=
  (condition.map formula).getD (.test none)

theorem conditionBindings_eq_bound (condition : Option Node) (outcome : Bool) :
    conditionBindings condition outcome = (conditionFormula condition).bound variablesOf outcome := by
  cases condition with
  | none => cases outcome <;> rfl
  | some n => exact bindings_eq_bound outcome n

end Node

/-! ## names as texts -/

namespace SourceUnit

variable {ns : List Node} {names : List String} {u : SourceUnit}

/-- the text of an identifier that can be read -/
def nameOf (u : SourceUnit) (n : Node) : String :=
  (u.text n).toOption.getD ""

theorem mapM_text_cons (u : SourceUnit) {n : Node} (h : (n :: ns).mapM u.text = .ok names) :
    u.text n = .ok (u.nameOf n) ∧ ∃ rest, ns.mapM u.text = .ok rest ∧ names = u.nameOf n :: rest := by
  rw [List.mapM_cons] at h
  obtain ⟨name, hname, h⟩ := Run.of_except_bind h
  obtain ⟨rest, hrest, h⟩ := Run.of_except_bind h
  have heq : u.nameOf n = name := by
    rw [nameOf, hname]
    rfl
  cases h
  rw [heq]
  exact ⟨hname, rest, hrest, rfl⟩

theorem eq_map_of_mapM_text (h : ns.mapM u.text = .ok names) : names = ns.map u.nameOf := by
  induction ns generalizing names with
  | nil =>
    rw [List.mapM_nil] at h
    cases h
    rfl
  | cons n ns ih =>
    obtain ⟨_, rest, hrest, rfl⟩ := u.mapM_text_cons h
    rw [List.map_cons, ← ih hrest]

theorem text_of_mapM_text {n : Node}
    (h : ns.mapM u.text = .ok names) (hn : n ∈ ns) : u.text n = .ok (u.nameOf n) := by
  induction ns generalizing names with
  | nil => cases hn
  | cons m ns ih =>
    obtain ⟨hfirst, rest, hrest, _⟩ := u.mapM_text_cons h
    rcases List.mem_cons.mp hn with rfl | hlater
    · exact hfirst
    · exact ih hrest hlater

theorem mapM_text_of_sublist {part : List Node}
    (h : ns.mapM u.text = .ok names) (hpart : part.Sublist ns) : part.mapM u.text = .ok (part.map u.nameOf) := by
  induction hpart generalizing names with
  | slnil => rw [List.mapM_nil]; rfl
  | cons n _ ih =>
    obtain ⟨_, rest, hrest, _⟩ := u.mapM_text_cons h
    exact ih hrest
  | cons_cons n _ ih =>
    obtain ⟨hname, rest, hrest, _⟩ := u.mapM_text_cons h
    rw [List.mapM_cons, hname, ih hrest]
    rfl

end SourceUnit

/-! ## conditions of a unit -/

namespace Node

/-- Of a condition whose pattern variables have different names: an outcome binds a name if and only if in every short-circuit
evaluation with that outcome the test with this variable was made and came out true. There are such evaluations for both
outcomes, no name is bound for both, and the names come from left to right and once each. -/
theorem conditionBindings_iff_always_true {u : SourceUnit} {condition : Option Node} {names : List String}
    (readable : ((conditionFormula condition).tests.flatMap variablesOf).mapM u.text = .ok names)
    (distinct : names.Nodup) :
    ∃ bound : Bool → List String, ∀ outcome,
      (conditionBindings condition outcome).mapM u.text = .ok (bound outcome) ∧
      (∃ run, (conditionFormula condition).Evaluates outcome run) ∧
      (∀ x, x ∈ bound outcome ↔ ∃ test ∈ (conditionFormula condition).tests,
        (∃ identifier ∈ variablesOf test, u.text identifier = .ok x) ∧
          ∀ run, (conditionFormula condition).Evaluates outcome run → (test, true) ∈ run) ∧
      (∀ x ∈ bound outcome, x ∉ bound (!outcome)) ∧
      (bound outcome).Sublist names ∧ (bound outcome).Nodup := by
  let f := conditionFormula condition
  let namesOf := fun test => (variablesOf test).map u.nameOf
  have hall : names = f.tests.flatMap namesOf := by
    rw [SourceUnit.eq_map_of_mapM_text readable, List.map_flatMap]
  have hbound : ∀ outcome, f.bound namesOf outcome = (conditionBindings condition outcome).map u.nameOf := by
    intro outcome
    rw [conditionBindings_eq_bound]
    exact Formula.bound_map u.nameOf f outcome
  rw [hall] at distinct ⊢
  refine ⟨f.bound namesOf, fun outcome => ⟨?_, f.exists_evaluates outcome, fun x => ?_,
    fun x => Formula.bound_disjoint, f.bound_sublist outcome, (f.bound_sublist outcome).nodup distinct⟩⟩
  · show _ = Except.ok (f.bound namesOf outcome)
    rw [hbound, conditionBindings_eq_bound]
    exact SourceUnit.mapM_text_of_sublist readable (f.bound_sublist outcome)
  · rw [Formula.mem_bound_iff distinct]
    refine exists_congr fun test => and_congr_right fun htest => and_congr_left' ?_
    constructor
    · intro hx
      obtain ⟨identifier, hmem, rfl⟩ := List.mem_map.mp hx
      exact ⟨identifier, hmem, SourceUnit.text_of_mapM_text readable (List.mem_flatMap.mpr ⟨test, htest, hmem⟩)⟩
    · rintro ⟨identifier, hmem, hx⟩
      refine List.mem_map.mpr ⟨identifier, hmem, ?_⟩
      rw [SourceUnit.nameOf, hx]
      rfl

/-! ## two tests under a negation -/

def guardedTests : Node :=
  ⟨"binary_expression", true, false, 0, 44, none, [
    ⟨"unary_expression", true, false, 0, 39, some "left", [
      ⟨"!", false, false, 0, 1, some "operator", []⟩,
      ⟨"parenthesized_expression", true, false, 1, 39, some "operand", [
        ⟨"(", false, false, 1, 2, none, []⟩,
        ⟨"binary_expression", true, false, 2, 38, none, [
          ⟨"instanceof_expression", true, false, 2, 18, some "left", [
            ⟨"identifier", true, false, 2, 3, some "left", []⟩, ⟨"instanceof", false, false, 4, 14, none, []⟩,
            ⟨"type_identifier", true, false, 15, 16, some "right", []⟩,
            ⟨"identifier", true, false, 17, 18, some "name", []⟩]⟩,
          ⟨"&&", false, false, 19, 21, some "operator", []⟩,
          ⟨"instanceof_expression", true, false, 22, 38, some "right", [
            ⟨"identifier", true, false, 22, 23, some "left", []⟩, ⟨"instanceof", false, false, 24, 34, none, []⟩,
            ⟨"type_identifier", true, false, 35, 36, some "right", []⟩,
            ⟨"identifier", true, false, 37, 38, some "name", []⟩]⟩]⟩,
        ⟨")", false, false, 38, 39, none, []⟩]⟩]⟩,
    ⟨"||", false, false, 40, 42, some "operator", []⟩, ⟨"identifier", true, false, 43, 44, some "right", []⟩]⟩

def guardedText : SourceUnit :=
  .ofText "!(o instanceof A a && p instanceof B b) || c" ⟨guardedTests, none⟩

/-- If `!(o instanceof A a && p instanceof B b) || c` comes out false, both tests have come out true. -/
theorem guardedTests_made :
    ((conditionFormula guardedTests).tests.flatMap variablesOf).mapM guardedText.text = .ok ["a", "b"] ∧
    (conditionBindings guardedTests false).mapM guardedText.text = .ok ["a", "b"] ∧
    ∀ x ∈ ["a", "b"], ∃ test ∈ (conditionFormula guardedTests).tests,
      (∃ identifier ∈ variablesOf test, guardedText.text identifier = .ok x) ∧
        ∀ run, (conditionFormula guardedTests).Evaluates false run → (test, true) ∈ run := by
  have hread : ((conditionFormula guardedTests).tests.flatMap variablesOf).mapM guardedText.text = .ok ["a", "b"] ∧
      (conditionBindings guardedTests false).mapM guardedText.text = .ok ["a", "b"] := by
    rw [guardedText, SourceUnit.ofText_eq]
    exact ⟨rfl, rfl⟩
  obtain ⟨bound, hbound⟩ := conditionBindings_iff_always_true hread.1 (by decide)
  obtain ⟨hsame, _, hiff, _⟩ := hbound false
  refine ⟨hread.1, hread.2, fun x hx => (hiff x).mp ?_⟩
  rw [hread.2] at hsame
  rw [← Except.ok.inj hsame]
  exact hx

end Node

end StaticPromotion
