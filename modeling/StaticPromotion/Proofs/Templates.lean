import StaticPromotion.Proofs.Capturing

/-!
# Expressions embedded in templates

The parts of a template are evaluated one after the other, and so are the parts of an interpolation. But a string literal has
no parts to evaluate, whatever stands in it. An expression that is embedded in a template stands in an interpolation, which
stands in a literal: so it is never looked at.

* `Node.isTemplate`        a template or an interpolation, of which all parts are walked;
* `Node.Carries n e`       `e` is embedded in `n`, and no literal lies between;
* `Node.emptied`           the node with nothing in its literals. `walkRegion_emptied`: the walk is the same;
* `Inspects.carried`       what is carried is inspected, if nothing was found;
* `Table.UsesInstance`     an expression that needs an instance of a class around the method: a field, a receiver, or the call of
                           a method that a subclass may replace;
* `carried_parts_decide`   so what a template carries decides about the method, and what it has in literals does not.
-/

namespace StaticPromotion

variable {via : ClassId}

open Subject

/-! ## templates -/

namespace Node

def isTemplate (n : Node) : Bool :=
  n.kind == "template_expression" || n.kind == "string_interpolation"

def isStringLiteral (n : Node) : Bool :=
  n.kind == "string_literal"

/-- a part of a template, or of a template that is part of it -/
inductive Carries : Node → Node → Prop
  | part {n e : Node} (template : n.isTemplate = true) (he : e ∈ n.namedChildren) : Carries n e
  | deeper {n c e : Node} (template : n.isTemplate = true) (hc : c ∈ n.namedChildren) (rest : Carries c e) :
      Carries n e

theorem Carries.named {n e : Node} (h : n.Carries e) : e.named = true := by
  induction h with
  | part _ he => exact named_of_mem_namedChildren he
  | deeper _ _ _ ih => exact ih

mutual

/-- nothing in the string literals of a template -/
def emptied : Node → Node
  | n@⟨kind, named, missing, start, stop, field, children⟩ =>
    if n.isStringLiteral then ⟨kind, named, missing, start, stop, field, []⟩
    else if n.isTemplate then ⟨kind, named, missing, start, stop, field, emptiedAll children⟩
    else n

def emptiedAll : List Node → List Node
  | [] => []
  | c :: rest => emptied c :: emptiedAll rest

end

theorem emptiedAll_eq_map (cs : List Node) : emptiedAll cs = cs.map emptied := by
  induction cs with
  | nil => rfl
  | cons c rest ih => rw [emptiedAll, ih, List.map_cons]

section
variable {n : Node}

/-- only the children differ, and only those of templates and literals -/
theorem emptied_eq (n : Node) : n.emptied = { n with children :=
    if n.isStringLiteral then [] else if n.isTemplate then n.children.map emptied else n.children } := by
  obtain ⟨kind, named, missing, start, stop, field, children⟩ := n
  rw [emptied, emptiedAll_eq_map]
  by_cases hliteral : isStringLiteral ⟨kind, named, missing, start, stop, field, children⟩ = true
  · rw [if_pos hliteral, if_pos hliteral]
  by_cases htemplate : isTemplate ⟨kind, named, missing, start, stop, field, children⟩ = true
  · rw [if_neg hliteral, if_neg hliteral, if_pos htemplate, if_pos htemplate]
  · rw [if_neg hliteral, if_neg hliteral, if_neg htemplate, if_neg htemplate]

theorem emptied_of_other (hliteral : ¬ n.isStringLiteral = true) (htemplate : ¬ n.isTemplate = true) : n.emptied = n := by
  rw [emptied_eq, if_neg hliteral, if_neg htemplate]
  cases n
  rfl

theorem kind_of_isTemplate (h : n.isTemplate = true) :
    n.kind = "template_expression" ∨ n.kind = "string_interpolation" := by
  rw [isTemplate, Bool.or_eq_true, beq_iff_eq, beq_iff_eq] at h
  exact h

theorem construct_of_isTemplate (h : n.isTemplate = true) : n.construct = .transparent := by
  rw [construct]
  rcases kind_of_isTemplate h with hkind | hkind <;> rw [hkind] <;> rfl

theorem construct_of_isStringLiteral (h : n.isStringLiteral = true) : n.construct = .inert := by
  rw [construct, beq_iff_eq.mp h]
  rfl

theorem not_isStringLiteral_of_isTemplate (h : n.isTemplate = true) : n.isStringLiteral = false := by
  rw [isStringLiteral]
  rcases kind_of_isTemplate h with hkind | hkind <;> rw [hkind] <;> rfl

theorem named_emptied (n : Node) : n.emptied.named = n.named := by
  rw [emptied_eq]

theorem namedChildren_emptied (h : n.isTemplate = true) : n.emptied.namedChildren = n.namedChildren.map emptied := by
  rw [emptied_eq, not_isStringLiteral_of_isTemplate h, h, namedChildren, namedChildren]
  show (n.children.map emptied).filter _ = _
  rw [List.filter_map]
  congr 1
  refine List.filter_congr fun c _ => ?_
  exact named_emptied c

theorem plan_of_isTemplate (h : n.isTemplate = true) : n.plan = visitAll .here n.namedChildren := by
  rw [plan, construct_of_isTemplate h]

end

end Node

/-! ## walks of templates -/

namespace Subject

variable {s : Subject} {go : Onward} {n : Node} {sc : ScopeId}

theorem visitSteps_visitAll (parts : List Node) :
    s.visitSteps go sc sc (Node.visitAll .here parts) = parts.forM fun part => go (.code part sc) := by
  funext st
  induction parts generalizing st with
  | nil => rfl
  | cons part rest ih =>
    have hstep : s.visitSteps go sc sc (Node.visitAll .here (part :: rest)) st =
        (go (.code part sc) >>= fun _ => s.visitSteps go sc sc (Node.visitAll .here rest)) st := rfl
    rw [hstep]
    show _ = (go (.code part sc) >>= fun _ => rest.forM fun part => go (.code part sc)) st
    cases hgo : go (.code part sc) st with
    | ok _ st₁ => rw [Run.bind_of_ok hgo, Run.bind_of_ok hgo, ih]
    | error halt st₁ => rw [Run.bind_of_error hgo, Run.bind_of_error hgo]

theorem evaluate_template (h : n.isTemplate = true) :
    s.evaluate go n sc n.construct = n.namedChildren.forM fun part => go (.code part sc) := by
  rw [Node.construct_of_isTemplate h, evaluate_planned rfl, Node.plan_of_isTemplate h, visitSteps_visitAll]

theorem evaluate_literal (h : n.isStringLiteral = true) : s.evaluate go n sc n.construct = pure () := by
  rw [Node.construct_of_isStringLiteral h]
  rfl

/-- what stands in the literals of a template makes no difference to its walk -/
theorem walkRegion_emptied (hstrict : s.exhaustive = false) (depth : Nat) (n : Node) (sc : ScopeId) :
    s.walkRegion depth (.code n.emptied sc) = s.walkRegion depth (.code n sc) := by
  induction depth generalizing n sc with
  | zero => rfl
  | succ depth ih =>
    show s.visitCode _ n.emptied sc = s.visitCode _ n sc
    have hbroken : n.emptied.isBroken = n.isBroken := by
      rw [Node.emptied_eq]
      rfl
    cases hwhole : n.isBroken with
    | true =>
      have hnote : s.note .unparsable n.emptied = s.note .unparsable n := by
        rw [Node.emptied_eq]
        rfl
      rw [visitCode, visitCode, hbroken, hwhole, if_pos rfl, if_pos rfl, reject_eq_note hstrict,
        reject_eq_note hstrict, hnote]
    | false =>
      cases hnamed : n.named with
      | false =>
        rw [visitCode, visitCode, hbroken, hwhole, Node.named_emptied, hnamed]
        rfl
      | true =>
        rw [visitCode_eq (hbroken.trans hwhole) ((Node.named_emptied n).trans hnamed), visitCode_eq hwhole hnamed]
        by_cases hliteral : n.isStringLiteral = true
        · have hsame : n.emptied.isStringLiteral = true := by
            rw [Node.emptied_eq]
            exact hliteral
          rw [evaluate_literal hsame, evaluate_literal hliteral]
        by_cases htemplate : n.isTemplate = true
        · have hsame : n.emptied.isTemplate = true := by
            rw [Node.emptied_eq]
            exact htemplate
          rw [evaluate_template hsame, evaluate_template htemplate, Node.namedChildren_emptied htemplate,
            List.forM_eq_forM, List.forM_map]
          simp only [ih]
        · rw [Node.emptied_of_other hliteral htemplate]

end Subject

/-! ## parts that are inspected -/

namespace Table

variable {t : Table} {scopes s' : Scopes} {m : MethodId} {depth : Nat} {n e : Node} {sc : ScopeId} {st : WalkState}

theorem Inspects.templatePart {edges : List MethodId} (h : t.Inspects scopes m depth (.code n sc) st)
    (clear : t.classify scopes m = .ok (.clear edges, s')) (hnamed : n.named = true)
    (htemplate : n.isTemplate = true) (he : e ∈ n.namedChildren) :
    ∃ depth' st', t.Inspects scopes m depth' (.code e sc) st' := by
  obtain ⟨below, last, rfl, hran⟩ := h.runs clear
  have hwalk : ∀ go, visitRegion { table := t, method := m } go (.code n sc) =
      n.namedChildren.forM fun part => go (.code part sc) := fun go => by
    rw [← evaluate_template htemplate]
    exact visitCode_eq (whole_of_visitCode rfl hran) hnamed
  rw [hwalk] at hran
  obtain ⟨st', hincludes⟩ := includes_forM
    (fun c _ => uniform_go { table := t, method := m } (.code c sc)) hran he
  refine ⟨below, st', h.onward ?_⟩
  simp only [hwalk]
  exact hincludes.meets _ _ meets_go

/-- by induction on the way down to it -/
theorem Inspects.carried {edges : List MethodId} (h : t.Inspects scopes m depth (.code n sc) st)
    (clear : t.classify scopes m = .ok (.clear edges, s')) (hnamed : n.named = true) (hcarries : n.Carries e) :
    ∃ depth' st', t.Inspects scopes m depth' (.code e sc) st' := by
  induction hcarries generalizing depth st with
  | part htemplate he => exact h.templatePart clear hnamed htemplate he
  | deeper htemplate hc _ ih =>
    obtain ⟨depth', st', hpart⟩ := h.templatePart clear hnamed htemplate hc
    exact ih hpart (Node.named_of_mem_namedChildren hc)

/-! ## uses of an instance -/

inductive UsesInstance (t : Table) (m : MethodId) (scopes : Scopes) (sc : ScopeId) : Node → Prop
  /-- a field of an instance -/
  | field {n : Node} {name : String} {field : Field} {via : ClassId} {shadow : Option ClassId}
      (construct : n.construct = .identifier) (text : t.source.text n = .ok name)
      (refers : t.resolveName scopes sc name = .field field via shadow) (ofInstance : field.isStatic = false)
      (foreign : t.declaredWithin via m = false) : UsesInstance t m scopes sc n
  /-- `this` or `super` -/
  | receiver {n : Node} (construct : n.construct = .receiver)
      (foreign : ∀ c, scopes.innermostClass sc = some c → t.declaredWithin c m = false) :
      UsesInstance t m scopes sc n
  /-- the call of a method that a subclass may replace -/
  | call {n : Node} {name : String} {overloads : List MethodId} {via : ClassId} {shadow : Option ClassId}
      {callee : MethodId} (construct : n.construct = .invocation) (noObject : n.child? "object" = none)
      (text : t.source.optionalText (n.child? "name") = .ok name)
      (refers : t.resolveMethod scopes sc name (Node.argumentCount (n.child? "arguments")) =
        .methods overloads via shadow)
      (foreign : t.declaredWithin via m = false) (hcallee : callee ∈ overloads)
      (virtual : Use.isVirtual (t.method callee) = true) : UsesInstance t m scopes sc n

end Table

namespace Subject

variable {s : Subject} (hstrict : s.exhaustive = false) {name : String} {n : Node} {shadow : Option ClassId}
include hstrict

/-- whatever hides the name, an access that comes after it is one in any case -/
theorem decides_noteInherited_then {reason : String → Reason} {x : Walk Unit}
    (hx : Decides x (s.table.source.line n) True) :
    Decides (s.noteInherited shadow reason n >>= fun _ => x) (s.table.source.line n) True := by
  cases shadow with
  | none => exact hx
  | some d => exact ((decides_noteInherited hstrict reason).andThen hx).congr ⟨fun _ => trivial, .inr⟩

theorem decides_readsField {field : Field} (hfield : field.isStatic = false)
    (hforeign : s.table.declaredWithin via s.method = false) :
    Decides (s.checkReference (.field field via shadow) name n) (s.table.source.line n) True := by
  refine decides_noteInherited_then hstrict ?_
  rw [hfield, (isForeign_some s via).mpr hforeign]
  exact decides_note hstrict _

theorem decides_callsVirtual {overloads : List MethodId} {callee : MethodId}
    (hforeign : s.table.declaredWithin via s.method = false) (hcallee : callee ∈ overloads)
    (hvirtual : Use.isVirtual (s.table.method callee) = true) :
    Decides (s.checkCall (.methods overloads via shadow) name n) (s.table.source.line n) True := by
  rw [checkCall, if_pos ((isForeign_some s via).mpr hforeign)]
  refine decides_noteInherited_then hstrict ((decides_callees hstrict overloads).congr ?_)
  exact iff_true_intro (List.any_eq_true.mpr ⟨callee, hcallee, hvirtual⟩)

end Subject

namespace Table

variable {t : Table} {scopes s' : Scopes} {m : MethodId} {depth : Nat} {n e : Node} {sc : ScopeId} {st : WalkState}

/-- such an expression decides about the method, one case for each kind of use -/
theorem UsesInstance.access (h : t.UsesInstance m st.scopes sc n)
    (hinspects : t.Inspects scopes m (depth + 1) (.code n sc) st) (hnamed : n.named = true) :
    ∃ finding s', t.classify scopes m = .ok (.access finding, s') := by
  cases hwhole : n.isBroken with
  | true =>
    obtain ⟨s', hclassify⟩ := hinspects.unparsable hwhole
    exact ⟨_, s', hclassify⟩
  | false =>
    cases h with
    | @field name field via shadow construct text refers ofInstance foreign =>
      have hdecides : Decides (checkReference { table := t, method := m } (.field field via shadow) name n)
        (t.source.line n) True := decides_readsField rfl ofInstance foreign
      obtain ⟨reason, last, hhalt⟩ := (hdecides st).1 trivial
      rw [← refers] at hhalt
      exact ⟨_, _, (Evaluates.name hinspects hwhole hnamed construct text).access hhalt⟩
    | receiver construct foreign =>
      have hforeign : Subject.isForeign { table := t, method := m } (st.scopes.innermostClass sc) = true := by
        cases hclass : st.scopes.innermostClass sc with
        | none => rfl
        | some c => exact (isForeign_some _ c).mpr (foreign c hclass)
      have hhalt : walkRegion { table := t, method := m } (depth + 1) (.code n sc) st =
          .error (.access ⟨.uses n.kind, t.source.line n⟩) st := by
        show visitCode _ _ n sc st = _
        rw [visitCode_eq hwhole hnamed, construct, evaluate, visitReceiver_eq, hforeign, if_pos rfl, note_eq_throw rfl]
        rfl
      exact ⟨_, _, hinspects.access hhalt⟩
    | @call name overloads via shadow callee construct noObject text refers foreign hcallee virtual =>
      have hdecides : Decides (checkCall { table := t, method := m } (.methods overloads via shadow) name n)
        (t.source.line n) True := decides_callsVirtual rfl foreign hcallee virtual
      obtain ⟨reason, last, hhalt⟩ := (hdecides st).1 trivial
      rw [← refers] at hhalt
      exact ⟨_, _, (Evaluates.call hinspects hwhole hnamed construct noObject text).access hhalt⟩

/-- Where the inspection of a method comes to a template, every expression that it carries outside of string literals is
inspected, in the scope of the template, unless an access was found before; and if it uses the instance, then the verdict is
an access. A literal is passed over, so that the walk of a template is the same with nothing in its literals. -/
theorem carried_parts_decide (inspects : t.Inspects scopes m depth (.code n sc) st) (named : n.named = true) :
    (∀ e verdict s', n.Carries e → t.classify scopes m = .ok (verdict, s') →
      (∃ finding, verdict = .access finding) ∨
        ∃ depth' st' last, t.Inspects scopes m depth' (.code e sc) st' ∧
          Subject.walkRegion { table := t, method := m } depth' (.code e sc) st' = .ok () last ∧
          ¬ t.UsesInstance m st'.scopes sc e) ∧
    (n.isStringLiteral = true → n.missing = false → ∀ below,
      Subject.walkRegion { table := t, method := m } (below + 1) (.code n sc) st = .ok () st) ∧
    ∀ below, Subject.walkRegion { table := t, method := m } below (.code n.emptied sc) =
      Subject.walkRegion { table := t, method := m } below (.code n sc) := by
  refine ⟨fun e verdict s' hcarries hclassify => ?_, fun hliteral hpresent below => ?_,
    fun below => walkRegion_emptied rfl below n sc⟩
  · cases verdict with
    | access finding => exact .inl ⟨finding, rfl⟩
    | clear edges =>
      obtain ⟨depth', st', hpart⟩ := inspects.carried hclassify named hcarries
      obtain ⟨last, hran⟩ := hpart.succeeds hclassify
      refine .inr ⟨depth', st', last, hpart, hran, fun huses => ?_⟩
      obtain ⟨below, _, rfl, _⟩ := hpart.runs hclassify
      obtain ⟨finding, s'', haccess⟩ := huses.access hpart hcarries.named
      rw [hclassify] at haccess
      cases haccess
  · have hwhole : n.isBroken = false := by
      rw [Node.isBroken, hpresent, beq_iff_eq.mp hliteral]
      rfl
    show Subject.visitCode _ _ n sc st = _
    rw [visitCode_eq hwhole named, evaluate_literal hliteral]
    rfl

end Table

/-! ## a field in a template -/

/-- the tree of `x` in the template of `quotedField`, and of what is around it -/
def embeddedName : Node := ⟨"identifier", true, false, 52, 53, none, []⟩

def interpolation : Node :=
  ⟨"string_interpolation", true, false, 50, 54, none, [
    ⟨"\\\x7b", false, false, 50, 52, none, []⟩,
    embeddedName,
    ⟨"\x7d", false, false, 53, 54, none, []⟩]⟩

def quotation : Node :=
  ⟨"string_literal", true, false, 49, 55, some "template_argument", [
    ⟨"\"", false, false, 49, 50, none, []⟩,
    interpolation,
    ⟨"\"", false, false, 54, 55, none, []⟩]⟩

def processor : Node := ⟨"identifier", true, false, 45, 48, some "template_processor", []⟩

def template : Node :=
  ⟨"template_expression", true, false, 45, 55, none, [
    processor,
    ⟨".", false, false, 48, 49, none, []⟩,
    quotation]⟩

def templateReturn : Node :=
  ⟨"return_statement", true, false, 38, 56, none, [
    ⟨"return", false, false, 38, 44, none, []⟩,
    template,
    ⟨";", false, false, 55, 56, none, []⟩]⟩

def templateBlock : Node :=
  ⟨"block", true, false, 36, 58, some "body", [
    ⟨"\x7b", false, false, 36, 37, none, []⟩,
    templateReturn,
    ⟨"\x7d", false, false, 57, 58, none, []⟩]⟩

/-- `class A { int x; private String f() { return STR."\{x}"; } }` -/
def quotedField : SourceUnit :=
  .ofText "class A \x7b int x; private String f() \x7b return STR.\"\\\x7bx\x7d\"; \x7d \x7d" ⟨
    ⟨"program", true, false, 0, 60, none, [
      ⟨"class_declaration", true, false, 0, 60, none, [
        ⟨"class", false, false, 0, 5, none, []⟩, ⟨"identifier", true, false, 6, 7, some "name", []⟩,
        ⟨"class_body", true, false, 8, 60, some "body", [
          ⟨"\x7b", false, false, 8, 9, none, []⟩,
          ⟨"field_declaration", true, false, 10, 16, none, [
            ⟨"integral_type", true, false, 10, 13, some "type", []⟩,
            ⟨"variable_declarator", true, false, 14, 15, some "declarator", [
              ⟨"identifier", true, false, 14, 15, some "name", []⟩]⟩,
            ⟨";", false, false, 15, 16, none, []⟩]⟩,
          ⟨"method_declaration", true, false, 17, 58, none, [
            ⟨"modifiers", true, false, 17, 24, none, [
              ⟨"private", false, false, 17, 24, none, []⟩]⟩,
            ⟨"type_identifier", true, false, 25, 31, some "type", []⟩,
            ⟨"identifier", true, false, 32, 33, some "name", []⟩,
            ⟨"formal_parameters", true, false, 33, 35, some "parameters", [
              ⟨"(", false, false, 33, 34, none, []⟩, ⟨")", false, false, 34, 35, none, []⟩]⟩,
            templateBlock]⟩,
          ⟨"\x7d", false, false, 59, 60, none, []⟩]⟩]⟩]⟩, none⟩

/-- of a field: whether it is static, and where it was found -/
def Reference.fieldData? : Reference → Option (Bool × ClassId)
  | .field found via _ => some (found.isStatic, via)
  | _ => none

theorem Reference.of_fieldData? {ref : Reference} {isStatic : Bool}
    (h : ref.fieldData? = some (isStatic, via)) :
    ∃ field shadow, ref = .field field via shadow ∧ field.isStatic = isStatic := by
  cases ref with
  | field found via' shadow =>
    cases h
    exact ⟨found, shadow, rfl, rfl⟩
  | _ => cases h

namespace Table

/-- what the walk down to the template needs to know, and what is embedded in it -/
def LeadsToTemplate (t : Table) : Prop :=
  (t.method ⟨0, 0⟩).body = some templateBlock ∧
  ((t.method ⟨0, 0⟩).parameters.map Node.parameterNames).getD [] = [] ∧ (t.method ⟨0, 0⟩).name = "f" ∧
  walkDepth t = 24 ∧ (t.source.text embeddedName).toOption = some "x" ∧
  (t.resolveName (scopesAtCreation t "f").2 (scopesAtCreation t "f").1 "x").fieldData? = some (false, 0) ∧
  t.declaredWithin 0 ⟨0, 0⟩ = false ∧ (t.verdict ⟨0, 0⟩).toOption = some (.clear [])
deriving Decidable

theorem quotedField_leads : ∃ t, ofSource quotedField = .ok t ∧ t.LeadsToTemplate := by
  have h : (ofSource quotedField).toOption.any (fun t => decide t.LeadsToTemplate) = true := by
    rw [quotedField, SourceUnit.ofText_eq]
    decide +kernel
  obtain ⟨t, built, hall⟩ := Run.of_toOption_any h
  exact ⟨t, built, of_decide_eq_true hall⟩

theorem LeadsToTemplate.inspects {t : Table} (h : t.LeadsToTemplate) :
    t.Inspects t.scopes ⟨0, 0⟩ 22 (.code template (scopesAtCreation t "f").1)
      { scopes := (scopesAtCreation t "f").2 } := by
  obtain ⟨hbody, hparameters, hname, hdepth, _⟩ := h
  exact @inspects_only_part _ _ _ _ templateReturn _ (fun _ _ => rfl) _ rfl hbody hparameters hname hdepth
    fun _ _ => rfl

/-- In `STR."\{x}"` the field `x` of the instance is embedded in the template, and yet `f` is clear. -/
theorem embedded_field_missed :
    ∃ t sc st, ofSource quotedField = .ok t ∧ t.Inspects t.scopes ⟨0, 0⟩ 22 (.code template sc) st ∧
      template.kind = "template_expression" ∧ quotation ∈ template.namedChildren ∧
      interpolation ∈ quotation.namedChildren ∧ interpolation.kind = "string_interpolation" ∧
      embeddedName ∈ interpolation.namedChildren ∧ t.UsesInstance ⟨0, 0⟩ st.scopes sc embeddedName ∧
      t.verdict ⟨0, 0⟩ = .ok (.clear []) := by
  obtain ⟨t, built, hleads⟩ := quotedField_leads
  have hinspects := hleads.inspects
  obtain ⟨_, _, _, _, htext, hdata, hforeign, hverdict⟩ := hleads
  obtain ⟨field, shadow, hrefers, hfield⟩ := Reference.of_fieldData? hdata
  exact ⟨t, _, _, built, hinspects, rfl, by decide, by decide, rfl, by decide,
    .field rfl (Run.of_toOption_eq htext) hrefers hfield hforeign, Run.of_toOption_eq hverdict⟩

/-- The processor of that template was inspected and found to need no instance; the literal makes no difference. -/
theorem quotedField_processor_inspected :
    ∃ t sc st, ofSource quotedField = .ok t ∧ t.Inspects t.scopes ⟨0, 0⟩ 22 (.code template sc) st ∧
      template.Carries processor ∧
      (∃ depth st', t.Inspects t.scopes ⟨0, 0⟩ depth (.code processor sc) st' ∧
        ¬ t.UsesInstance ⟨0, 0⟩ st'.scopes sc processor) ∧
      Subject.walkRegion { table := t, method := ⟨0, 0⟩ } 22 (.code template.emptied sc) =
        Subject.walkRegion { table := t, method := ⟨0, 0⟩ } 22 (.code template sc) := by
  obtain ⟨t, built, hleads⟩ := quotedField_leads
  have hinspects := hleads.inspects
  obtain ⟨_, _, _, _, _, _, _, hverdict⟩ := hleads
  obtain ⟨⟨verdict, s'⟩, hclassify, hclear⟩ := classify_of_verdict (Run.of_toOption_eq hverdict)
  have hcarries : template.Carries processor := .part rfl (by decide)
  obtain ⟨hparts, _, hemptied⟩ := carried_parts_decide hinspects rfl
  refine ⟨t, _, _, built, hinspects, hcarries, ?_, hemptied 22⟩
  rcases hparts processor verdict s' hcarries hclassify with ⟨finding, haccess⟩ | hinspected
  · rw [haccess] at hclear
    cases hclear
  · obtain ⟨depth, st', _, hpart, _, hnone⟩ := hinspected
    exact ⟨depth, st', hpart, hnone⟩

end Table

end StaticPromotion
