import StaticPromotion.Proofs.Decoding
import StaticPromotion.Proofs.Opacity

/-!
# Creations that capture an instance

A creation without an outer instance in front of it captures the one that the code stands in, if the class is an inner one.
What counts as the outer instance is the first part that is no type, no argument list and no body. That may also be a
comment or an annotation; then the creation is taken for one with an outer instance, and the class is not looked at.

* `Node.isRemark`       a comment or an annotation;
* `Node.NamesNoOuter`   a creation whose parts are remarks, types, arguments and bodies only;
* `walk_of_capture`     without remarks, the walk of such a creation halts at the class that it captures for;
* `walk_past_remark`    with one, the walk is that of the other parts;
* `captures_seen_without_remarks`   the two, for the creations that an inspection comes to.
-/

namespace StaticPromotion

open Subject

/-! ## parts of creations -/

namespace Node

variable {n : Node}

def isRemark (n : Node) : Bool :=
  n.isComment || n.kind == "annotation" || n.kind == "marker_annotation"

/-- every part is a comment, an annotation, a type, the arguments or a body -/
def NamesNoOuter (n : Node) : Prop :=
  ∀ part ∈ n.namedChildren, part.isRemark = true ∨ isTypeKind part.kind = true ∨
    part.kind = "argument_list" ∨ part.kind = "class_body"
deriving Decidable

theorem kind_of_isRemark (h : n.isRemark = true) :
    n.kind = "line_comment" ∨ n.kind = "block_comment" ∨ n.kind = "annotation" ∨
      n.kind = "marker_annotation" := by
  simp only [isRemark, isComment, Bool.or_eq_true, beq_iff_eq, or_assoc] at h
  exact h

theorem isQualifier_of_isRemark (h : n.isRemark = true) : isQualifier n = true := by
  rw [isQualifier]
  rcases kind_of_isRemark h with hkind | hkind | hkind | hkind <;> rw [hkind] <;> rfl

theorem isQualifier_of_part
    (h : isTypeKind n.kind = true ∨ n.kind = "argument_list" ∨ n.kind = "class_body") :
    isQualifier n = false := by
  rw [isQualifier]
  rcases h with htype | hkind | hkind
  · rw [htype]
    rfl
  · rw [hkind]
    rfl
  · rw [hkind]
    rfl

theorem NamesNoOuter.isQualifier_eq {part : Node} (h : n.NamesNoOuter) (hpart : part ∈ n.namedChildren) :
    isQualifier part = part.isRemark := by
  rcases h part hpart with hremark | hother
  · rw [hremark]
    exact isQualifier_of_isRemark hremark
  · have hnone := isQualifier_of_part hother
    cases hremark : part.isRemark with
    | false => exact hnone
    | true => exact absurd (isQualifier_of_isRemark hremark) (by rw [hnone]; exact Bool.false_ne_true)

end Node

/-! ## walks -/

namespace Subject

variable {s : Subject} {go : Onward} {n : Node} {sc : ScopeId} {st : WalkState}

theorem visitCode_remark {remark : Node} (h : remark.isRemark = true) (hnamed : remark.named = true)
    (hpresent : remark.missing = false) : s.visitCode go remark sc = pure () := by
  have hconstruct : remark.construct = .inert ∧ remark.isBroken = false := by
    rw [Node.construct, Node.isBroken, hpresent]
    rcases Node.kind_of_isRemark h with hkind | hkind | hkind | hkind <;> rw [hkind] <;> exact ⟨rfl, rfl⟩
  rw [visitCode_eq hconstruct.2 hnamed, hconstruct.1]
  rfl

/-- the class is looked at if nothing is taken for an outer instance -/
theorem walk_of_capture {written : String} {c : ClassId} (hstrict : s.exhaustive = false)
    (hnone : ∀ part ∈ n.namedChildren, isQualifier part = false)
    (htext : s.table.source.optionalText (n.child? "type") = .ok written)
    (hclass : (s.table.resolveTypeText st.scopes sc written).bind (·.cls) = some c)
    (hcaptures : s.table.capturesInstance s.method c = true) :
    s.visitCreation go n sc st =
      .error (.access ⟨.createsInner (s.table.displayName c), s.table.source.line n⟩) st := by
  have hfind : n.namedChildren.find? isQualifier = none :=
    List.find?_eq_none.mpr fun part hpart => by rw [hnone part hpart]; exact Bool.false_ne_true
  have hread : s.optionalText (n.child? "type") st = .ok written st := by
    rw [optionalText, htext]
    rfl
  have hcaptured : s.capturedClass sc written st = .ok (some c) st := by
    show EStateM.Result.ok (((s.table.resolveTypeText st.scopes sc written).bind (·.cls)).filter _) st = _
    rw [hclass, Option.filter_some, hcaptures]
    rfl
  refine Run.bind_of_error ?_
  simp only [visitOuterInstance, hfind]
  rw [Run.bind_of_ok hread, Run.bind_of_ok hcaptured]
  show s.note _ n st = _
  rw [note_eq_throw hstrict]
  rfl

theorem walk_past_remark {before after : List Node} {remark : Node}
    (hparts : n.namedChildren = before ++ remark :: after)
    (hbefore : ∀ part ∈ before, isQualifier part = false) (hremark : remark.isRemark = true) :
    s.visitCreation go n sc =
      (go (.code remark sc) >>= fun _ => s.visitSteps go sc sc (n.creationSteps (before ++ after))) := by
  have hqualifier := Node.isQualifier_of_isRemark hremark
  have hskip : ∀ part ∈ before, ¬ isQualifier part = true := fun part hpart => by
    rw [hbefore part hpart]
    exact Bool.false_ne_true
  have hfind : n.namedChildren.find? isQualifier = some remark := by
    rw [hparts, List.find?_append, List.find?_eq_none.mpr hskip, List.find?_cons_of_pos hqualifier]
    rfl
  have herase : n.namedChildren.eraseP isQualifier = before ++ after := by
    rw [hparts, List.eraseP_append_right _ hskip, List.eraseP_cons_of_pos hqualifier]
  have hthis : (remark.kind == "this") = false := by
    rcases Node.kind_of_isRemark hremark with hkind | hkind | hkind | hkind <;> rw [hkind] <;> rfl
  rw [visitCreation, herase]
  simp only [visitOuterInstance, hfind, hthis, Bool.false_eq_true, if_false]

end Subject

/-! ## creations that an inspection comes to -/

namespace Table

theorem Inspects.unparsable {t : Table} {scopes : Scopes} {m : MethodId} {depth : Nat} {n : Node}
    {sc : ScopeId} {st : WalkState} (h : t.Inspects scopes m (depth + 1) (.code n sc) st)
    (hbroken : n.isBroken = true) :
    ∃ s', t.classify scopes m = .ok (.access ⟨.unparsable, t.source.line n⟩, s') := by
  have hhalt : walkRegion { table := t, method := m } (depth + 1) (.code n sc) st =
      .error (.access ⟨.unparsable, t.source.line n⟩) st := by
    show visitCode _ _ n sc st = _
    rw [visitCode, if_pos hbroken, reject_eq_note rfl, note_eq_throw rfl]
    rfl
  exact ⟨_, h.access hhalt⟩

/-- A creation whose class captures, and that names no outer instance. Without comments and annotations among its parts the
verdict is that it creates an inner class. At the first of them the class is not looked at, and the walk goes on to the
other parts as it would for any class; a made-up one is unparsable. -/
theorem captures_seen_without_remarks {t : Table} {scopes : Scopes} {m : MethodId} {depth : Nat}
    {n : Node} {sc : ScopeId} {st : WalkState} {written : String} {c : ClassId}
    (inspects : t.Inspects scopes m (depth + 1) (.code n sc) st) (named : n.named = true)
    (creation : n.construct = .creation) (noOuter : n.NamesNoOuter)
    (text : t.source.optionalText (n.child? "type") = .ok written)
    (resolves : (t.resolveTypeText st.scopes sc written).bind (·.cls) = some c)
    (captures : t.capturesInstance m c = true) :
    (n.isBroken = true → ∃ s', t.classify scopes m = .ok (.access ⟨.unparsable, t.source.line n⟩, s')) ∧
      (n.isBroken = false → (∀ part ∈ n.namedChildren, part.isRemark = false) →
        ∃ s', t.classify scopes m =
          .ok (.access ⟨.createsInner (t.displayName c), t.source.line n⟩, s')) ∧
      ∀ before remark after, n.isBroken = false → n.namedChildren = before ++ remark :: after →
        (∀ part ∈ before, part.isRemark = false) → remark.isRemark = true → 0 < depth →
        (remark.missing = true →
          ∃ s', t.classify scopes m = .ok (.access ⟨.unparsable, t.source.line remark⟩, s')) ∧
        (remark.missing = false →
          Subject.walkRegion { table := t, method := m } (depth + 1) (.code n sc) st =
            Subject.visitSteps { table := t, method := m }
              (Subject.walkRegion { table := t, method := m } depth) sc sc
              (n.creationSteps (before ++ after)) st) := by
  have hwalk : n.isBroken = false → ∀ go, Subject.visitCode { table := t, method := m } go n sc =
      Subject.visitCreation { table := t, method := m } go n sc := by
    intro hwhole go
    rw [visitCode_eq hwhole named, creation]
    rfl
  refine ⟨inspects.unparsable, fun hwhole hnone => ?_,
    fun before remark after hwhole hparts hbefore hremark hdepth => ?_⟩
  · have hhalt : Subject.walkRegion { table := t, method := m } (depth + 1) (.code n sc) st =
        .error (.access ⟨.createsInner (t.displayName c), t.source.line n⟩) st := by
      show Subject.visitCode _ _ n sc st = _
      rw [hwalk hwhole]
      exact walk_of_capture rfl (fun part hpart => (noOuter.isQualifier_eq hpart).trans (hnone part hpart))
        text resolves captures
    exact ⟨_, inspects.access hhalt⟩
  · obtain ⟨depth, rfl⟩ := Nat.exists_eq_succ_of_ne_zero (Nat.pos_iff_ne_zero.mp hdepth)
    have hmem : ∀ part ∈ before, part ∈ n.namedChildren := fun part hpart => by
      rw [hparts]
      exact List.mem_append_left _ hpart
    have hlast : remark ∈ n.namedChildren := by
      rw [hparts]
      exact List.mem_append_right _ List.mem_cons_self
    have hpast := fun go => (hwalk hwhole go).trans (walk_past_remark hparts
      (fun part hpart => (noOuter.isQualifier_eq (hmem part hpart)).trans (hbefore part hpart)) hremark)
    refine ⟨fun hmissing => ?_, fun hpresent => ?_⟩
    · have hmeets : Meets (fun go => Subject.visitRegion { table := t, method := m } go (.code n sc))
          (Subject.walkRegion { table := t, method := m } (depth + 1)) st (.code remark sc) st := by
        intro go' halt last hsevered
        show Subject.visitCode _ go' n sc st = _
        rw [hpast]
        exact Run.bind_of_error hsevered.there
      refine (inspects.trans (.onward hmeets (.here _ _ _))).unparsable ?_
      rw [Node.isBroken, hmissing, Bool.or_true]
    · show Subject.visitCode _ _ n sc st = _
      rw [hpast]
      show (Subject.visitCode _ _ remark sc >>= _) st = _
      rw [visitCode_remark hremark (Node.named_of_mem_namedChildren hlast) hpresent]
      rfl

end Table

/-! ## a comment in a creation -/

/-- the tree of `new /**/ B()`, and of the statement and the block around it; then the same without the comment -/
def commentedCreation : Node :=
  ⟨"object_creation_expression", true, false, 41, 53, none, [
    ⟨"new", false, false, 41, 44, none, []⟩, ⟨"block_comment", true, false, 45, 49, none, []⟩,
    ⟨"type_identifier", true, false, 50, 51, some "type", []⟩,
    ⟨"argument_list", true, false, 51, 53, some "arguments", [
      ⟨"(", false, false, 51, 52, none, []⟩, ⟨")", false, false, 52, 53, none, []⟩]⟩]⟩

def commentedStatement : Node :=
  ⟨"expression_statement", true, false, 41, 54, none, [
    commentedCreation,
    ⟨";", false, false, 53, 54, none, []⟩]⟩

def commentedBlock : Node :=
  ⟨"block", true, false, 39, 56, some "body", [
    ⟨"\x7b", false, false, 39, 40, none, []⟩,
    commentedStatement,
    ⟨"\x7d", false, false, 55, 56, none, []⟩]⟩

def bareCreation : Node :=
  ⟨"object_creation_expression", true, false, 76, 83, none, [
    ⟨"new", false, false, 76, 79, none, []⟩, ⟨"type_identifier", true, false, 80, 81, some "type", []⟩,
    ⟨"argument_list", true, false, 81, 83, some "arguments", [
      ⟨"(", false, false, 81, 82, none, []⟩, ⟨")", false, false, 82, 83, none, []⟩]⟩]⟩

def bareStatement : Node :=
  ⟨"expression_statement", true, false, 76, 84, none, [
    bareCreation,
    ⟨";", false, false, 83, 84, none, []⟩]⟩

def bareBlock : Node :=
  ⟨"block", true, false, 74, 86, some "body", [
    ⟨"\x7b", false, false, 74, 75, none, []⟩,
    bareStatement,
    ⟨"\x7d", false, false, 85, 86, none, []⟩]⟩

/-- `class A { class B { } private void f() { new /**/ B(); } private void g() { new B(); } }` -/
def remarkedPair : SourceUnit :=
  .ofText ("class A \x7b class B \x7b \x7d private void f() \x7b new /**/ B(); \x7d " ++
    "private void g() \x7b new B(); \x7d \x7d") ⟨
    ⟨"program", true, false, 0, 88, none, [
      ⟨"class_declaration", true, false, 0, 88, none, [
        ⟨"class", false, false, 0, 5, none, []⟩, ⟨"identifier", true, false, 6, 7, some "name", []⟩,
        ⟨"class_body", true, false, 8, 88, some "body", [
          ⟨"\x7b", false, false, 8, 9, none, []⟩,
          ⟨"class_declaration", true, false, 10, 21, none, [
            ⟨"class", false, false, 10, 15, none, []⟩, ⟨"identifier", true, false, 16, 17, some "name", []⟩,
            ⟨"class_body", true, false, 18, 21, some "body", [
              ⟨"\x7b", false, false, 18, 19, none, []⟩, ⟨"\x7d", false, false, 20, 21, none, []⟩]⟩]⟩,
          ⟨"method_declaration", true, false, 22, 56, none, [
            ⟨"modifiers", true, false, 22, 29, none, [
              ⟨"private", false, false, 22, 29, none, []⟩]⟩,
            ⟨"void_type", true, false, 30, 34, some "type", []⟩, ⟨"identifier", true, false, 35, 36, some "name", []⟩,
            ⟨"formal_parameters", true, false, 36, 38, some "parameters", [
              ⟨"(", false, false, 36, 37, none, []⟩, ⟨")", false, false, 37, 38, none, []⟩]⟩,
            commentedBlock]⟩,
          ⟨"method_declaration", true, false, 57, 86, none, [
            ⟨"modifiers", true, false, 57, 64, none, [
              ⟨"private", false, false, 57, 64, none, []⟩]⟩,
            ⟨"void_type", true, false, 65, 69, some "type", []⟩, ⟨"identifier", true, false, 70, 71, some "name", []⟩,
            ⟨"formal_parameters", true, false, 71, 73, some "parameters", [
              ⟨"(", false, false, 71, 72, none, []⟩, ⟨")", false, false, 72, 73, none, []⟩]⟩,
            bareBlock]⟩,
          ⟨"\x7d", false, false, 87, 88, none, []⟩]⟩]⟩]⟩, none⟩

/-- the scope of the statement in a method of `A`, and all levels down to it -/
def scopesAtCreation (t : Table) (method : String) : ScopeId × Scopes :=
  let (scope, s) := t.scopes.child (t.decl 0).scope s!"method_{method}"
  let (inner, s) := s.child scope
  s.child inner Node.statementLabel

namespace Table

/-- what the walk down to the creation in a method needs to know, and what the creation captures -/
def LeadsToCreation (t : Table) (m : MethodId) (method : String) (block creation : Node) : Prop :=
  m.owner = 0 ∧ (t.method m).body = some block ∧
  ((t.method m).parameters.map Node.parameterNames).getD [] = [] ∧ (t.method m).name = method ∧
  walkDepth t = 33 ∧
  (t.resolveTypeText (scopesAtCreation t method).2 (scopesAtCreation t method).1 "B").bind (·.cls) = some 1 ∧
  t.capturesInstance m 1 = true ∧ (t.source.optionalText (creation.child? "type")).toOption = some "B"
deriving Decidable

theorem remarkedPair_leads :
    ∃ t, Table.ofSource remarkedPair = .ok t ∧ t.LeadsToCreation ⟨0, 0⟩ "f" commentedBlock commentedCreation ∧
      t.LeadsToCreation ⟨0, 1⟩ "g" bareBlock bareCreation ∧ (t.verdict ⟨0, 0⟩).toOption = some (.clear []) ∧
      t.displayName 1 = "A.B" := by
  have h : (Table.ofSource remarkedPair).toOption.any (fun t => decide (
      t.LeadsToCreation ⟨0, 0⟩ "f" commentedBlock commentedCreation ∧ t.LeadsToCreation ⟨0, 1⟩ "g" bareBlock bareCreation ∧
      (t.verdict ⟨0, 0⟩).toOption = some (.clear []) ∧ t.displayName 1 = "A.B")) = true := by
    rw [remarkedPair, SourceUnit.ofText_eq]
    decide +kernel
  obtain ⟨t, built, hall⟩ := Run.of_toOption_any h
  exact ⟨t, built, of_decide_eq_true hall⟩

section
variable {t : Table} {m : MethodId} {method : String} {block statement part creation : Node}
  (hblock : ∀ go sc, visitCode { table := t, method := m } go block sc =
    visitSteps { table := t, method := m } go sc sc
      [.enter Scopes.blockLabel [], .visit statement (.fresh .inner Node.statementLabel [])])
include hblock

theorem inspects_only_part {depth : Nat} (howner : m.owner = 0) (hbody : (t.method m).body = some block)
    (hparameters : ((t.method m).parameters.map Node.parameterNames).getD [] = [])
    (hname : (t.method m).name = method) (hdepth : walkDepth t = depth + 2)
    (hstatement : ∀ go sc, visitCode { table := t, method := m } go statement sc =
      visitSteps { table := t, method := m } go sc sc [.visit part .here]) :
    t.Inspects t.scopes m depth (.code part (scopesAtCreation t method).1)
      { scopes := (scopesAtCreation t method).2 } := by
  refine ⟨block, _, _, hbody, by rw [hparameters, hname, howner]; rfl, ?_⟩
  rw [hdepth]
  refine .onward (?_ : Meets _ _ _ (.code statement (scopesAtCreation t method).1)
    { scopes := (scopesAtCreation t method).2 }) ?_
  · simp only [visitRegion, hblock]
    exact meets_enter rfl (meets_visit rfl [])
  refine .onward (?_ : Meets _ _ _ _ _) (.here _ _ _)
  simp only [visitRegion, hstatement]
  exact meets_visit rfl []

theorem LeadsToCreation.inspects (h : t.LeadsToCreation m method block creation)
    (hstatement : ∀ go sc, visitCode { table := t, method := m } go statement sc =
      visitSteps { table := t, method := m } go sc sc [.visit creation .here]) :
    t.Inspects t.scopes m 31 (.code creation (scopesAtCreation t method).1)
      { scopes := (scopesAtCreation t method).2 } := by
  obtain ⟨howner, hbody, hparameters, hname, hdepth, _⟩ := h
  exact inspects_only_part hblock howner hbody hparameters hname hdepth hstatement

end

theorem LeadsToCreation.inspects_commented {t : Table}
    (h : t.LeadsToCreation ⟨0, 0⟩ "f" commentedBlock commentedCreation) :
    t.Inspects t.scopes ⟨0, 0⟩ 31 (.code commentedCreation (scopesAtCreation t "f").1)
      { scopes := (scopesAtCreation t "f").2 } :=
  @LeadsToCreation.inspects _ _ _ _ commentedStatement _ (fun _ _ => rfl) h fun _ _ => rfl

theorem LeadsToCreation.inspects_bare {t : Table} (h : t.LeadsToCreation ⟨0, 1⟩ "g" bareBlock bareCreation) :
    t.Inspects t.scopes ⟨0, 1⟩ 31 (.code bareCreation (scopesAtCreation t "g").1)
      { scopes := (scopesAtCreation t "g").2 } :=
  @LeadsToCreation.inspects _ _ _ _ bareStatement _ (fun _ _ => rfl) h fun _ _ => rfl

theorem commentedCreation_namesNoOuter : commentedCreation.NamesNoOuter := by
  decide

theorem bareCreation_namesNoOuter : bareCreation.NamesNoOuter := by
  decide

/-- In `new /**/ B()` the class is an inner one of `A`, no part is an outer instance, and yet `f` is clear. -/
theorem capture_missed_after_comment :
    ∃ t sc st, Table.ofSource remarkedPair = .ok t ∧
      t.Inspects t.scopes ⟨0, 0⟩ 31 (.code commentedCreation sc) st ∧
      commentedCreation.construct = .creation ∧ commentedCreation.NamesNoOuter ∧
      t.source.optionalText (commentedCreation.child? "type") = .ok "B" ∧
      (t.resolveTypeText st.scopes sc "B").bind (·.cls) = some 1 ∧
      t.capturesInstance ⟨0, 0⟩ 1 = true ∧ t.verdict ⟨0, 0⟩ = .ok (.clear []) := by
  obtain ⟨t, built, hleads, _, hverdict, _⟩ := remarkedPair_leads
  have hinspects := hleads.inspects_commented
  obtain ⟨_, _, _, _, _, hresolves, hcaptures, htext⟩ := hleads
  exact ⟨t, _, _, built, hinspects, rfl, commentedCreation_namesNoOuter, Run.of_toOption_eq htext,
    hresolves, hcaptures, Run.of_toOption_eq hverdict⟩

/-- `new B()` is seen to capture; of `new /**/ B()` only the arguments are walked. -/
theorem remarkedPair_captures :
    ∃ t, Table.ofSource remarkedPair = .ok t ∧
      (∃ s', t.classify t.scopes ⟨0, 1⟩ =
        .ok (.access ⟨.createsInner "A.B", t.source.line bareCreation⟩, s')) ∧
      ∃ sc st, t.Inspects t.scopes ⟨0, 0⟩ 31 (.code commentedCreation sc) st ∧
        Subject.walkRegion { table := t, method := ⟨0, 0⟩ } 31 (.code commentedCreation sc) st =
          Subject.visitSteps { table := t, method := ⟨0, 0⟩ }
            (Subject.walkRegion { table := t, method := ⟨0, 0⟩ } 30) sc sc
            (commentedCreation.creationSteps (commentedCreation.namedChildren.drop 1)) st := by
  obtain ⟨t, built, hcommented, hbare, _, hname⟩ := remarkedPair_leads
  have hinspects := hcommented.inspects_commented
  have hinspects' := hbare.inspects_bare
  obtain ⟨_, _, _, _, _, hresolves, hcaptures, htext⟩ := hcommented
  obtain ⟨_, _, _, _, _, hresolves', hcaptures', htext'⟩ := hbare
  obtain ⟨-, hseen, -⟩ := captures_seen_without_remarks hinspects' rfl rfl bareCreation_namesNoOuter
    (Run.of_toOption_eq htext') hresolves' hcaptures'
  obtain ⟨-, -, hpast⟩ := captures_seen_without_remarks hinspects rfl rfl commentedCreation_namesNoOuter
    (Run.of_toOption_eq htext) hresolves hcaptures
  rw [hname] at hseen
  refine ⟨t, built, hseen rfl (by decide), _, _, hinspects, ?_⟩
  exact (hpast [] _ _ rfl rfl (by simp) rfl (by decide)).2 rfl

end Table

end StaticPromotion
