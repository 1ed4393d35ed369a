import StaticPromotion.Proofs.Inspection

/-!
# The classes that an inspection meets

An inspection looks up the classes that it comes to by the keys of their nodes. It keeps in step with the pass over the unit, so
each of them is found; and if no node was entered twice, what is found is the class that was entered there: one declared within
the method, which sees the block levels around its declaration as the inspection sees them.

* `Table.RecordedAt`     what the table holds of a class is what the inspection finds around its declaration;
* `Subject.CodeAt.met`   the class at a node that declares one, by the two constructs that do;
* `Subject.BodyAt.met`   the classes that are members of a class;
* `Table.met_classes_recorded`   all of this about an inspection.
-/

namespace StaticPromotion

open Table

/-- the class belongs to the method, and sees the levels that the scope is in, up to the same classes -/
structure Table.RecordedAt (t : Table) (m : MethodId) (c : ClassId) (scopes : Scopes) (sc : ScopeId) :
    Prop where
  enclosing : (t.decl c).enclosingMethod = some m
  classes : t.scopes.classes (t.decl c).scope = c :: scopes.classes sc
  blocks : t.scopes.blocksOf (t.scopes.frame (t.decl c).scope).ancestors = scopes.blocks sc

namespace Subject

variable {s : Subject} {source : SourceUnit} {b : Nat} {n : Node} {sc sc' : ScopeId} {st : WalkState}
  {owner : CodeOwner} {t₁ t₂ : Table}

/-- the class that the pass has entered at a node, and the levels that it captured there -/
theorem CodeAt.entered (h : s.CodeAt b n sc st owner sc' t₁ t₂) (hn : n.declaresClass = true) :
    ∃ k, s.table.Entered owner n k ∧ (s.Tracks owner →
      s.table.scopes.blocksOf (s.table.scopes.frame (s.table.decl k).scope).ancestors = st.scopes.blocks sc) := by
  unfold Node.declaresClass at hn
  split at hn
  · rename_i flavour hconstruct
    have hplan : n.plan = [.localClass n] := by rw [Node.plan, hconstruct]
    have hsteps := h.ran.code
    rw [hplan] at hsteps
    obtain ⟨t', hcls, hafter, _⟩ := hsteps.localClass
    refine ⟨t₁.classes.size, hcls.entered, fun htracks => ?_⟩
    rw [hcls.captured hsteps.fits.stands.1 hafter, (h.twin htracks).blocks]
  · rename_i hconstruct
    obtain ⟨body, hbody, hkind⟩ := List.any_eq_true.mp hn
    have hmem : .anonymousClass n body ∈ n.plan := by
      rw [Node.plan, hconstruct]
      refine List.mem_map.mpr ⟨body, List.mem_filter.mpr ⟨hbody, ?_⟩, if_pos hkind⟩
      rw [eq_of_beq hkind]
      rfl
    by_cases htracks : s.Tracks owner
    · have hknown : n.construct ≠ .unknown := by
        rw [hconstruct]
        decide
      have hcalm := h.calm htracks.orderly (by rw [hconstruct]; rfl) hknown
      obtain ⟨k, hentered, hblocks⟩ :=
        h.ran.code.calm_class (hcalm.level_plan (by rw [hconstruct]; rfl)) hmem
      exact ⟨k, hentered, fun _ => by rw [hblocks, (h.twin htracks).blocks]⟩
    · obtain ⟨_, _, _, hcls⟩ := h.ran.code.class_of_mem hmem
      exact ⟨_, hcls.entered, fun hno => absurd hno htracks⟩
  · cases hn

section
variable (built : ofSource source = .ok s.table)
include built

/-- code of the class that the method belongs to is its own code, if it is not in a class declared there -/
theorem CodeAt.owner_eq (h : s.CodeAt b n sc st owner sc' t₁ t₂) (honce : s.table.IndexesOnce)
    (hinnermost : st.scopes.innermostClass sc = some s.method.owner) : owner = s.own := by
  have hcls : owner.cls = s.method.owner := by
    rw [h.stands.innermostClass] at hinnermost
    exact Option.some.inj hinnermost
  refine (h.within honce).resolve_right fun hwithin => ?_
  have howner : owner.cls < s.table.classes.size := by
    have hhouses : t₁.Houses owner sc' := h.ran.fits.stands
    exact Nat.lt_of_lt_of_le hhouses.lt h.ran.stays.size
  rw [hcls] at hwithin howner
  rw [(sound_of_ofSource built).owner_foreign howner] at hwithin
  cases hwithin

theorem CodeAt.met (h : s.CodeAt b n sc st owner sc' t₁ t₂) (hn : n.declaresClass = true) :
    ∃ c, s.table.classFor n = some c ∧ (s.table.IndexesOnce →
      s.table.declaredWithin c s.method = true ∧ (s.table.IsOrderly →
        st.scopes.innermostClass sc = some s.method.owner →
          s.table.RecordedAt s.method c st.scopes sc)) := by
  obtain ⟨k, hentered, hblocks⟩ := h.entered hn
  have hdepth : s.reserve owner.cls ≤ b :=
    Nat.le_of_lt (Nat.lt_of_le_of_lt (Nat.le_add_right _ _) h.depth)
  obtain ⟨c, hfound, hat, hsame⟩ := bodyAt_of_entered built hentered hdepth h.grows h.within
  refine ⟨c, hfound, fun honce => ⟨hat.within honce, fun horderly hinnermost => ?_⟩⟩
  have hown := h.owner_eq built honce hinnermost
  cases hsame honce
  refine ⟨?_, ?_, hblocks ⟨horderly, honce, hown⟩⟩
  · rw [hentered.enclosing, hown]
    rfl
  · rw [(hat.level built).stands.classes, h.stands.classes, outersOf, hentered.outers]

/-- a member that declares a class, in the body of a class that is walked -/
theorem BodyAt.met {c : ClassId} (h : s.BodyAt b c st) {member : Node}
    (hmember : member ∈ s.table.membersOf c) (hdeclares : member.declaresMemberClass = true) :
    ∃ k, s.table.classFor member = some k ∧
      (s.table.IndexesOnce → s.table.declaredWithin k s.method = true) := by
  obtain ⟨_, _, hran⟩ := ranMembers_of_ofSource built h.lt
  obtain ⟨_, _, hran⟩ := hran.member_of_mem hmember
  have hentered : ∃ k, s.table.Entered ⟨c, none⟩ member k := by
    have hmemberRan := hran.ranMember
    unfold Node.declaresMemberClass at hdeclares
    split at hdeclares
    · rename_i hkind
      rw [hkind] at hmemberRan
      obtain ⟨_, _, _, _, hcls⟩ := hmemberRan
      exact ⟨_, hcls.entered⟩
    · rename_i hkind
      rw [hkind] at hmemberRan
      obtain ⟨body, hbody⟩ := Option.isSome_iff_exists.mp hdeclares
      obtain ⟨_, _, _, hcls⟩ := hmemberRan.2 body hbody
      exact ⟨_, hcls.entered⟩
    · cases hdeclares
  obtain ⟨k, hentered⟩ := hentered
  have hdepth : s.reserve c ≤ b := Nat.le_trans (Nat.le_add_right _ _) h.depth
  obtain ⟨k', hfound, hat, _⟩ := bodyAt_of_entered built hentered hdepth h.grows
    fun honce => .inr (h.within honce)
  exact ⟨k', hfound, hat.within⟩

end

end Subject

namespace Table

variable {t : Table} {scopes : Scopes} {m : MethodId} {source : SourceUnit}

/-- **The classes that the inspection of a method meets are those that the pass over the unit has entered.** In a tree whose
class-shaped nodes have distinct keys no class is missing: not at a declaration or a creation with a body in the code that the
inspection comes to, nor among the members of a class whose body it walks. If moreover no node was entered twice, then all these
classes are declared within the method; and if declarations stand in block positions, then a class in the method's own code is
recorded with the method and with the block levels that the inspection has around it, up to the class of the method. -/
theorem met_classes_recorded (built : ofSource source = .ok t) (hkeys : source.root.HasDistinctKeys)
    (reached : t.ScopesReached scopes) (hmethod : (t.method m).isConstructor = false) :
    (∀ finding s', t.classify scopes m = .ok (.access finding, s') →
      finding.reason ≠ .unindexedLocalClass ∧ finding.reason ≠ .unindexedAnonymousClass) ∧
    (∀ depth n sc st, t.Inspects scopes m depth (.code n sc) st → n.named = true →
      n.declaresClass = true → ∃ c, t.classFor n = some c ∧ (t.IndexesOnce →
        t.declaredWithin c m = true ∧ (t.IsOrderly → st.scopes.innermostClass sc = some m.owner →
          t.RecordedAt m c st.scopes sc))) ∧
    (∀ depth c st, t.Inspects scopes m depth (.body c) st →
      (t.IndexesOnce → t.declaredWithin c m = true) ∧
      ∀ member ∈ t.membersOf c, member.declaresMemberClass = true →
        ∃ k, t.classFor member = some k ∧ (t.IndexesOnce → t.declaredWithin k m = true)) := by
  have hown := hasOwnBodies_of_ofSource built hkeys
  refine ⟨fun finding s' hverdict => ?_, fun depth n sc st h hnamed hn => ?_, fun depth c st h => ?_⟩
  · have hindexed := (classify_ends built hown reached hmethod).1 finding s' hverdict
    constructor <;> intro hreason <;> rw [hreason] at hindexed <;> cases hindexed
  · rcases h.inStep built hown reached hmethod with ⟨hunnamed, _⟩ | ⟨owner, sc', t₁, t₂, hat⟩
    · rw [hnamed] at hunnamed
      cases hunnamed
    · exact hat.met built hn
  · have hat : Subject.BodyAt { table := t, method := m } depth c st :=
      h.inStep built hown reached hmethod
    exact ⟨hat.within, fun member hmember hdeclares => hat.met built hmember hdeclares⟩

end Table

def capturingClass : Node :=
  ⟨"class_declaration", true, false, 26, 59, none, [
    ⟨"identifier", true, false, 32, 33, some "name", []⟩,
    ⟨"class_body", true, false, 34, 59, some "body", [
      ⟨"method_declaration", true, false, 36, 57, none, [
        ⟨"integral_type", true, false, 36, 39, some "type", []⟩, ⟨"identifier", true, false, 40, 41, some "name", []⟩,
        ⟨"formal_parameters", true, false, 41, 43, some "parameters", []⟩,
        ⟨"block", true, false, 44, 57, some "body", [
          ⟨"return_statement", true, false, 46, 55, none, [
            ⟨"identifier", true, false, 53, 54, none, []⟩]⟩]⟩]⟩]⟩]⟩

def capturingBlock : Node := ⟨"block", true, false, 24, 61, some "body", [capturingClass]⟩

/-- `class A { void f(int x) { class L { int g() { return x; } } } }` -/
def capturingUnit : SourceUnit :=
  .ofText "class A \x7b void f(int x) \x7b class L \x7b int g() \x7b return x; \x7d \x7d \x7d \x7d" ⟨
    ⟨"program", true, false, 0, 63, none, [
      ⟨"class_declaration", true, false, 0, 63, none, [
        ⟨"identifier", true, false, 6, 7, some "name", []⟩,
        ⟨"class_body", true, false, 8, 63, some "body", [
          ⟨"method_declaration", true, false, 10, 61, none, [
            ⟨"void_type", true, false, 10, 14, some "type", []⟩, ⟨"identifier", true, false, 15, 16, some "name", []⟩,
            ⟨"formal_parameters", true, false, 16, 23, some "parameters", [
              ⟨"formal_parameter", true, false, 17, 22, none, [
                ⟨"integral_type", true, false, 17, 20, some "type", []⟩,
                ⟨"identifier", true, false, 21, 22, some "name", []⟩]⟩]⟩,
            capturingBlock]⟩]⟩]⟩]⟩, none⟩

/-- what is known of the table of `capturingUnit`: `L` captures the parameter -/
def Table.Captures (t : Table) : Prop :=
  capturingUnit.root.HasDistinctKeys ∧ t.IndexesOnce ∧ t.IsOrderly ∧
  (t.method ⟨0, 0⟩).isConstructor = false ∧ (t.method ⟨0, 0⟩).body = some capturingBlock ∧
  Subject.walkDepth t = 39 ∧ t.classFor capturingClass = some 1 ∧
  t.scopes.blocksOf (t.scopes.frame (t.decl 1).scope).ancestors = [([], []), (["x"], [])]
deriving Decidable

/-- The inspection of `f` meets `L` under the parameter, as it is recorded. -/
theorem capturingUnit_recorded :
    ∃ t depth sc st, Table.ofSource capturingUnit = .ok t ∧ t.Captures ∧
      t.Inspects t.scopes ⟨0, 0⟩ depth (.code capturingClass sc) st ∧
      t.declaredWithin 1 ⟨0, 0⟩ = true ∧ t.RecordedAt ⟨0, 0⟩ 1 st.scopes sc ∧
      st.scopes.blocks sc = [([], []), (["x"], [])] := by
  have h : (Table.ofSource capturingUnit).toOption.any (fun t => decide t.Captures) = true := by
    decide +kernel
  obtain ⟨t, built, hdecided⟩ := Run.of_toOption_any h
  have hcaptures : t.Captures := of_decide_eq_true hdecided
  obtain ⟨hkeys, honce, horderly, hmethod, hbody, hdepth, hfound, hblocks⟩ := id hcaptures
  obtain ⟨scope, opened, hopen, _, _, _, hat⟩ := Table.codeAt_body built (.refl _) hmethod hbody
  have hinspects : t.Inspects t.scopes ⟨0, 0⟩ 38 (.code capturingClass (opened.child scope).1)
      { scopes := (opened.child scope).2 } := by
    refine ⟨capturingBlock, _, _, hbody, hopen, ?_⟩
    rw [hdepth]
    exact .onward (Subject.meets_enter rfl (Subject.meets_visit rfl [])) (.here _ _ _)
  obtain ⟨c, hc, hrecorded⟩ := (Table.met_classes_recorded built hkeys .start hmethod).2.1 _ _ _ _
    hinspects rfl rfl
  cases hfound.symm.trans hc
  obtain ⟨hwithin, hplace⟩ := hrecorded honce
  have hrecord := hplace horderly (hat.stands.child _).innermostClass
  exact ⟨t, _, _, _, built, hcaptures, hinspects, hwithin, hrecord,
    hrecord.blocks.symm.trans hblocks⟩

def twiceEntered : Node :=
  ⟨"class_declaration", true, false, 41, 74, none, [
    ⟨"identifier", true, false, 47, 48, some "name", []⟩,
    ⟨"class_body", true, false, 49, 74, some "body", [
      ⟨"method_declaration", true, false, 51, 72, none, [
        ⟨"integral_type", true, false, 51, 54, some "type", []⟩, ⟨"identifier", true, false, 55, 56, some "name", []⟩,
        ⟨"formal_parameters", true, false, 56, 58, some "parameters", []⟩,
        ⟨"block", true, false, 59, 72, some "body", [
          ⟨"return_statement", true, false, 61, 70, none, [
            ⟨"identifier", true, false, 68, 69, none, []⟩]⟩]⟩]⟩]⟩]⟩

def guardedTry : Node :=
  ⟨"try_with_resources_statement", true, false, 28, 81, none, [
    ⟨"catch_clause", true, false, 33, 76, some "resources", [
      ⟨"block", true, false, 39, 76, some "body", [twiceEntered]⟩]⟩,
    ⟨"block", true, false, 78, 81, some "body", []⟩]⟩

def guardedBlock : Node := ⟨"block", true, false, 26, 83, some "body", [guardedTry]⟩

/-- `class A { int y; void f() { try (catch { class L { int g() { return y; } } }) { } } }`: the resources are a catch clause -/
def guardedUnit : SourceUnit :=
  .ofText ("class A \x7b int y; void f() \x7b try (catch \x7b class L \x7b int g() \x7b return y; \x7d \x7d \x7d) " ++
    "\x7b \x7d \x7d \x7d") ⟨
    ⟨"program", true, false, 0, 85, none, [
      ⟨"class_declaration", true, false, 0, 85, none, [
        ⟨"identifier", true, false, 6, 7, some "name", []⟩,
        ⟨"class_body", true, false, 8, 85, some "body", [
          ⟨"field_declaration", true, false, 10, 16, none, [
            ⟨"integral_type", true, false, 10, 13, some "type", []⟩,
            ⟨"variable_declarator", true, false, 14, 15, some "declarator", [
              ⟨"identifier", true, false, 14, 15, some "name", []⟩]⟩]⟩,
          ⟨"method_declaration", true, false, 17, 83, none, [
            ⟨"void_type", true, false, 17, 21, some "type", []⟩, ⟨"identifier", true, false, 22, 23, some "name", []⟩,
            ⟨"formal_parameters", true, false, 23, 25, some "parameters", []⟩,
            guardedBlock]⟩]⟩]⟩]⟩, none⟩

/-- the level at which the inspection of `f` first meets `L` -/
def scopesAtGuarded (t : Table) : ScopeId × Scopes :=
  let (scope, s) := t.scopes.child (t.decl 0).scope "method_f"
  let (inner, s) := s.child scope
  let (statement, s) := s.child inner Node.statementLabel
  s.child statement "try"

/-- what is known of the table of `guardedUnit`: the record of `L` is that of the catch clause -/
def Table.EntersTwice (t : Table) : Prop :=
  guardedUnit.root.HasDistinctKeys ∧ t.IsOrderly ∧ (t.method ⟨0, 0⟩).isConstructor = false ∧
  (t.method ⟨0, 0⟩).body = some guardedBlock ∧
  ((t.method ⟨0, 0⟩).parameters.map Node.parameterNames).getD [] = [] ∧
  (t.method ⟨0, 0⟩).name = "f" ∧ Subject.walkDepth t = 64 ∧ t.classFor twiceEntered = some 2 ∧
  (scopesAtGuarded t).2.innermostClass (scopesAtGuarded t).1 = some 0 ∧
  t.scopes.blocksOf (t.scopes.frame (t.decl 2).scope).ancestors ≠
    (scopesAtGuarded t).2.blocks (scopesAtGuarded t).1
deriving Decidable

/-- A class that is entered twice is recorded in the place of its last entry. -/
theorem guardedUnit_misplaced :
    ∃ t depth sc st, Table.ofSource guardedUnit = .ok t ∧ guardedUnit.root.HasDistinctKeys ∧
      t.IsOrderly ∧ (t.method ⟨0, 0⟩).isConstructor = false ∧
      t.Inspects t.scopes ⟨0, 0⟩ depth (.code twiceEntered sc) st ∧
      st.scopes.innermostClass sc = some 0 ∧ t.classFor twiceEntered = some 2 ∧
      ¬ t.RecordedAt ⟨0, 0⟩ 2 st.scopes sc := by
  have h : (Table.ofSource guardedUnit).toOption.any (fun t => decide t.EntersTwice) = true := by
    decide +kernel
  obtain ⟨t, built, hdecided⟩ := Run.of_toOption_any h
  obtain ⟨hkeys, horderly, hmethod, hbody, hparameters, hname, hdepth, hfound, hinnermost, hblocks⟩ :=
    (of_decide_eq_true hdecided : t.EntersTwice)
  have hinspects : t.Inspects t.scopes ⟨0, 0⟩ 62 (.code twiceEntered (scopesAtGuarded t).1)
      { scopes := (scopesAtGuarded t).2 } := by
    refine ⟨guardedBlock, _, _, hbody, by rw [hparameters, hname]; rfl, ?_⟩
    rw [hdepth]
    refine .onward (Subject.meets_enter rfl (Subject.meets_visit rfl []) :
      Meets _ _ _ (.code guardedTry _) _) ?_
    exact .onward (Subject.meets_enter rfl (Subject.meets_visit rfl _)) (.here _ _ _)
  exact ⟨t, _, _, _, built, hkeys, horderly, hmethod, hinspects, hinnermost, hfound,
    fun hrecord => hblocks hrecord.blocks⟩

end StaticPromotion
