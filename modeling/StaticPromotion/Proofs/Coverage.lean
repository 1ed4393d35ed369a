import StaticPromotion.Proofs.Parts
import StaticPromotion.Proofs.Reach

/-!
# What a walk that runs through has walked

If the walk of a region does not halt, then it has carried out every step of the plan, and walked every part and every class
that the steps name.

* `Subject.includes_visitSteps`, `Subject.includes_forM`    a walk over a list that runs through includes each element;
* `Table.Sees own n`         the inspection of a method comes to a node, of the method's own code or of a class inside.
                             `Table.SeesBody`, `Table.SeesMember`: to the body of a class, and to a member in it;
* `Table.Handles own n`      it comes to a node, or has judged a receiver there without going on to it;
* `Sees.visit`, `Sees.localClass`, `Sees.creationPart`, `Sees.fieldAccess`, `Sees.invocation`, `Sees.methodReference`
                             what follows for the parts of a node, if the verdict is that nothing was found;
* `Table.ResolvesInside`     the name in front of a qualified receiver denotes a class declared inside the method;
* `SeesBody.member`, `SeesMember.field`, `SeesMember.method`, ...    the same for the members of a class.
-/

namespace StaticPromotion

variable {part body : Node} {place : Place} {α : Type}

open Subject

namespace Subject

variable {s : Subject}

variable {here inner : ScopeId} {step : Step} {done : Progress} {st st' met : WalkState} {go : Onward}
  {rest : List Step} {region : CodeRegion}

/-! ## steps -/

theorem visitSteps_cons (hperform : step.perform s.table.source here inner st.scopes = .ok done)
    (go : Onward) (rest : List Step) : s.visitSteps go here inner (step :: rest) st =
      (s.visitAction go done.action >>= fun _ => s.visitSteps go here done.inner rest)
        { st with scopes := done.scopes } := by
  show (lift (step.perform s.table.source here inner st.scopes) >>= _) st = _
  rw [hperform]
  rfl

theorem perform_of_visitSteps (h : s.visitSteps go here inner (step :: rest) st = .ok () st') :
    ∃ done, step.perform s.table.source here inner st.scopes = .ok done := by
  cases hperform : step.perform s.table.source here inner st.scopes with
  | ok done => exact ⟨done, rfl⟩
  | error fault =>
    have hhalt : s.visitSteps go here inner (step :: rest) st = .error (.fault fault) st := by
      show (lift (step.perform s.table.source here inner st.scopes) >>= _) st = _
      rw [hperform]
      rfl
    rw [hhalt] at h
    cases h

theorem uniform_visitAction (s : Subject) (action : Action) :
    Uniform s.table fun go => s.visitAction go action := by
  intro K hscope hfree henters go go' hgo
  refine Lockstep.runs_visitAction hgo ?_
  cases action with
  | none => trivial
  | visit part sc => exact ⟨rfl, (hscope sc).symm, henters _⟩
  | caseConstant name sc => exact ⟨rfl, (hscope sc).symm⟩
  | localClass declaration sc => exact ⟨rfl, (hscope sc).symm, hfree sc, fun _ _ => henters _⟩
  | anonymousClass creation body sc => exact ⟨rfl, rfl, (hscope sc).symm, fun _ _ => henters _⟩

theorem uniform_visitOuterInstance (s : Subject) (n : Node) (sc : ScopeId) :
    Uniform s.table fun go => s.visitOuterInstance go n sc := by
  intro K hscope _ henters go go' hgo
  have h := Lockstep.runs_visitOuterInstance (n := n) (s := s) hgo fun c _ => henters (.code c sc)
  rwa [hscope] at h

theorem uniform_visitCallee (s : Subject) (n : Node) (sc : ScopeId) (name : String) :
    Uniform s.table fun go => s.visitCallee go n sc name := by
  intro K hscope _ henters go go' hgo
  have h := Lockstep.runs_visitCallee (n := n) (s := s) hgo (fun c _ => henters (.code c sc)) name
  rwa [hscope] at h

theorem meets_visitSteps_first (hperform : step.perform s.table.source here inner st.scopes = .ok done)
    (rest : List Step)
    (h : Meets (fun go => s.visitAction go done.action) go { st with scopes := done.scopes } region met) :
    Meets (fun go => s.visitSteps go here inner (step :: rest)) go st region met := by
  intro go' halt last hsevered
  show s.visitSteps go' here inner (step :: rest) st = _
  rw [visitSteps_cons hperform]
  exact Run.bind_of_error (h go' halt last hsevered)

theorem meets_visitSteps_rest {st₁ : WalkState}
    (hperform : step.perform s.table.source here inner st.scopes = .ok done)
    (hfirst : s.visitAction go done.action { st with scopes := done.scopes } = .ok () st₁)
    (h : Meets (fun go => s.visitSteps go here done.inner rest) go st₁ region met) :
    Meets (fun go => s.visitSteps go here inner (step :: rest)) go st region met := by
  intro go' halt last hsevered
  show s.visitSteps go' here inner (step :: rest) st = _
  rw [visitSteps_cons hperform]
  have hafter : Meets (fun go => s.visitAction go done.action >>= fun _ =>
      s.visitSteps go here done.inner rest) go { st with scopes := done.scopes } region met :=
    Meets.after (uniform_visitAction s done.action).steady hfirst h
  exact hafter go' halt last hsevered

theorem meets_visit {sc : ScopeId} {s' : Scopes}
    (hplace : place.locate s.table.source here inner st.scopes = .ok (sc, s')) (rest : List Step) :
    Meets (fun go => s.visitSteps go here inner (.visit part place :: rest)) go st
      (.code part sc) { st with scopes := s' } := by
  have hperform : (Step.visit part place).perform s.table.source here inner st.scopes =
      .ok ⟨.visit part sc, inner, s'⟩ := by
    rw [Step.perform, hplace]
    rfl
  exact meets_visitSteps_first hperform rest meets_go

theorem meets_enter {sc : ScopeId} {label : String} {names : List Node} {s' : Scopes}
    (hopen : st.scopes.childDeclaring s.table.source here label names = .ok (sc, s'))
    (h : Meets (fun go => s.visitSteps go here sc rest) go { st with scopes := s' } region met) :
    Meets (fun go => s.visitSteps go here inner (.enter label names :: rest)) go st region met := by
  have hperform : (Step.enter label names).perform s.table.source here inner st.scopes =
      .ok ⟨.none, sc, s'⟩ := by
    rw [Step.perform, hopen]
    rfl
  exact meets_visitSteps_rest hperform rfl h

/-- Every step is carried out, in a scope that stands where the walk stands, and what is left to do is done. -/
theorem includes_visitSteps {depth : Nat} {steps : List Step}
    (hran : s.visitSteps (s.walkRegion depth) here inner steps st = .ok () st')
    {base : Scopes} (hbase : base.Grows st.scopes)
    (hinner : ∀ around, base.Stands here around → st.scopes.Stands inner around) (hstep : step ∈ steps) :
    ∃ inner₁ s₁ st₁ done, step.perform s.table.source here inner₁ s₁ = .ok done ∧ st₁.scopes = done.scopes ∧
      Includes (s.walkRegion depth) (fun go => s.visitSteps go here inner steps) st
        (fun go => s.visitAction go done.action) st₁ ∧
      ∀ around, base.Stands here around → done.action.Stands done.scopes around := by
  induction steps generalizing inner st with
  | nil => cases hstep
  | cons first rest ih =>
    obtain ⟨done, hperform⟩ := perform_of_visitSteps hran
    rw [visitSteps_cons hperform] at hran
    obtain ⟨_, st₁, hfirst, hrest⟩ := Run.of_bind_ok hran
    have hopening := fun around (h : base.Stands here around) =>
      Step.opening_perform (h.grows hbase) (hinner around h) hperform
    have hperformed : st.scopes.Grows done.scopes :=
      st.scopes.invariant_grows.perform (.refl _) hperform
    rcases List.mem_cons.mp hstep with rfl | hstep
    · refine ⟨inner, st.scopes, { st with scopes := done.scopes }, done, hperform, rfl, ?_,
        fun around h => (hopening around h).2⟩
      exact ⟨⟨_, st₁, hfirst⟩, hperformed, fun _ _ => meets_visitSteps_first hperform rest⟩
    · have hacted : done.scopes.Grows st₁.scopes := (uniform_visitAction s done.action).grows hfirst
      obtain ⟨inner₂, s₂, st₂, done₂, hperform₂, hscopes, hincludes, hstands⟩ :=
        ih hrest (hbase.trans (hperformed.trans hacted))
          (fun around h => (hopening around h).1.stands.grows hacted) hstep
      refine ⟨inner₂, s₂, st₂, done₂, hperform₂, hscopes, ?_, hstands⟩
      exact ⟨hincludes.ran, (hperformed.trans hacted).trans hincludes.grows, fun region met hmeets =>
        meets_visitSteps_rest hperform hfirst (hincludes.meets region met hmeets)⟩

theorem includes_forM {xs : List α} {f : Onward → α → Walk Unit} {depth : Nat}
    (hf : ∀ x ∈ xs, Uniform s.table fun go => f go x)
    (hran : xs.forM (f (s.walkRegion depth)) st = .ok () st') {x : α} (hx : x ∈ xs) :
    ∃ st₁, Includes (s.walkRegion depth) (fun go => xs.forM (f go)) st (fun go => f go x) st₁ := by
  induction xs generalizing st with
  | nil => cases hx
  | cons y ys ih =>
    obtain ⟨_, st₁, hfirst, hrest⟩ := Run.of_bind_ok hran
    rcases List.mem_cons.mp hx with rfl | hx
    · exact ⟨st, Includes.first hran⟩
    · have hy := hf y List.mem_cons_self
      obtain ⟨st₂, hincludes⟩ := ih (fun z hz => hf z (List.mem_cons_of_mem _ hz)) hrest hx
      exact ⟨st₂, (Includes.second hy.steady hfirst (hy.grows hfirst) hrest).trans hincludes⟩

end Subject

/-! ## inspections that find nothing -/

namespace Table

variable {t : Table} {scopes s' : Scopes} {m : MethodId} {edges : List MethodId}

/-- The inspection of `m` comes to a node; if it is code of `m` itself, and not of a class declared inside, then in a scope of
the class that `m` belongs to. -/
def Sees (t : Table) (scopes : Scopes) (m : MethodId) (own : Bool) (n : Node) : Prop :=
  ∃ depth sc st, t.Inspects scopes m depth (.code n sc) st ∧
    (own = true → ∃ around, st.scopes.Stands sc (m.owner :: around))

/-- the inspection of `m` comes to the body of a class -/
def SeesBody (t : Table) (scopes : Scopes) (m : MethodId) (c : ClassId) : Prop :=
  ∃ depth st, t.Inspects scopes m depth (.body c) st

/-- in the scope of some place that the inspection comes to, at a node or right above it, a name denotes a class declared inside
the method -/
def ResolvesInside (t : Table) (scopes : Scopes) (m : MethodId) (n outer : Node) : Prop :=
  ∃ depth place sc st written ref c, t.Inspects scopes m depth (.code place sc) st ∧
    (place = n ∨ n ∈ place.children) ∧ t.source.text outer = .ok written ∧
    t.resolveTypeText st.scopes sc written = some ref ∧ ref.cls = some c ∧
    t.declaredWithin c m = true

/-- the inspection of `m` has dealt with a node: it comes to it, or has judged it where it stands -/
inductive Handles (t : Table) (scopes : Scopes) (m : MethodId) (own : Bool) : Node → Prop
  | seen {n : Node} (h : t.Sees scopes m own n) : Handles t scopes m own n
  | receiver {n : Node} (h : n.construct = .receiver) (hown : own = false) : Handles t scopes m own n
  | thisAccess {n outer : Node} (h : isThisAccess n = true) (hobject : n.child? "object" = some outer)
      (hresolves : t.ResolvesInside scopes m n outer) : Handles t scopes m own n

theorem Inspects.onward {depth : Nat} {region region' : CodeRegion} {st met : WalkState}
    (h : t.Inspects scopes m (depth + 1) region st)
    (hmeets : Meets (fun go => visitRegion { table := t, method := m } go region)
      (walkRegion { table := t, method := m } depth) st region' met) :
    t.Inspects scopes m depth region' met :=
  h.trans (.onward hmeets (.here _ _ _))

theorem Inspects.runs {depth : Nat} {region : CodeRegion} {st : WalkState}
    (h : t.Inspects scopes m depth region st) (clear : t.classify scopes m = .ok (.clear edges, s')) :
    ∃ below last, depth = below + 1 ∧ visitRegion { table := t, method := m }
      (walkRegion { table := t, method := m } below) region st = .ok () last := by
  obtain ⟨last, hran⟩ := h.succeeds clear
  cases depth with
  | zero => cases hran
  | succ below =>
    rw [walkRegion_succ] at hran
    exact ⟨below, last, rfl, hran⟩

/-! ## steps of a region that is walked through -/

section
variable {depth : Nat} {region : CodeRegion} {st st₁ : WalkState} {sc : ScopeId}
  {steps : List Step} (h : t.Inspects scopes m (depth + 1) region st)
  (hincludes : Includes (walkRegion { table := t, method := m } depth)
    (fun go => visitRegion { table := t, method := m } go region) st
    (fun go => visitSteps { table := t, method := m } go sc sc steps) st₁)
include h hincludes

theorem Inspects.visit (hstep : .visit part place ∈ steps) :
    ∃ sc' met, t.Inspects scopes m depth (.code part sc') met ∧
      ∀ around, st₁.scopes.Stands sc around → met.scopes.Stands sc' around := by
  obtain ⟨_, last, hran⟩ := hincludes.ran
  obtain ⟨inner, before, st₂, done, hperform, hscopes, hstepped, hstands⟩ :=
    includes_visitSteps hran (.refl _) (fun _ hstands => hstands) hstep
  obtain ⟨⟨sc', after⟩, _, hdone⟩ := Run.of_except_bind hperform
  cases hdone
  refine ⟨sc', st₂, ?_, ?_⟩
  · exact h.onward ((hincludes.trans hstepped).meets _ _ meets_go)
  · intro around hsc
    rw [hscopes]
    exact hstands around hsc

theorem Inspects.localClass {n : Node} (hstep : .localClass n ∈ steps) :
    ∃ c, t.classFor n = some c ∧ t.SeesBody scopes m c := by
  obtain ⟨_, last, hran⟩ := hincludes.ran
  obtain ⟨inner, before, st₂, done, hperform, _, hstepped, _⟩ :=
    includes_visitSteps hran (.refl _) (fun _ hstands => hstands) hstep
  cases hperform
  obtain ⟨_, last', hacted⟩ := hstepped.ran
  have hmeets := fun region met => (hincludes.trans hstepped).meets region met
  simp only [visitAction, visitLocalClass] at hacted hmeets
  cases hclass : t.classFor n with
  | none =>
    rw [hclass] at hacted
    cases hacted
  | some c =>
    simp only [hclass] at hacted hmeets
    obtain ⟨_, st₃, hdeclared, _⟩ := Run.of_bind_ok hacted
    exact ⟨c, rfl, depth, st₃, h.onward (hmeets _ _ (Meets.after (steady_const _) hdeclared meets_go))⟩

theorem Inspects.anonymousClass {n : Node} (hstep : .anonymousClass n body ∈ steps) :
    ∃ c, t.classFor n = some c ∧ t.SeesBody scopes m c := by
  obtain ⟨_, last, hran⟩ := hincludes.ran
  obtain ⟨inner, before, st₂, done, hperform, _, hstepped, _⟩ :=
    includes_visitSteps hran (.refl _) (fun _ hstands => hstands) hstep
  cases hperform
  obtain ⟨_, last', hacted⟩ := hstepped.ran
  have hmeets := fun region met => (hincludes.trans hstepped).meets region met
  simp only [visitAction, visitAnonymousClass] at hacted hmeets
  cases hclass : t.classFor n with
  | none =>
    rw [hclass] at hacted
    cases hacted
  | some c =>
    simp only [hclass] at hmeets
    exact ⟨c, rfl, depth, st₂, h.onward (hmeets _ _ meets_go)⟩

end

end Table

/-! ## nodes that are walked through -/

namespace Subject

variable {s : Subject} {go : Onward} {n : Node} {sc : ScopeId}

variable {st st' : WalkState} {a : Unit}

/-- the walk of a node that can be read -/
def evaluate (s : Subject) (go : Onward) (n : Node) (sc : ScopeId) : Construct → Walk Unit
  | .inert => pure ()
  | .identifier => s.visitName n sc
  | .receiver => s.visitReceiver n sc
  | .fieldAccess => s.visitFieldAccess go n sc
  | .invocation => s.visitInvocation go n sc
  | .methodReference => s.visitMethodReference go n sc
  | .constructorCall => visitConstructorCall go n sc
  | .creation => s.visitCreation go n sc
  | .unknown => s.reject go (.unrecognized n.kind) n sc
  | _ => s.visitSteps go sc sc n.plan

theorem visitCode_eq (hwhole : n.isBroken = false) (hnamed : n.named = true) :
    s.visitCode go n sc = s.evaluate go n sc n.construct := by
  simp only [visitCode, hwhole, hnamed, Bool.false_eq_true, if_false, Bool.not_true]
  cases n.construct <;> rfl

theorem isForeign_some (s : Subject) (c : ClassId) :
    s.isForeign (some c) = true ↔ s.table.declaredWithin c s.method = false := by
  rw [isForeign, Option.any_some, Bool.not_eq_true']

theorem lift_ok {x : Except Fault α} {a : α} (h : lift x st = .ok a st') : x = .ok a ∧ st' = st := by
  cases x with
  | ok a' =>
    cases h
    exact ⟨rfl, rfl⟩
  | error fault => cases h

theorem note_ne_ok (hstrict : s.exhaustive = false) {reason : Reason} : s.note reason n st ≠ .ok a st' := by
  intro h
  rw [note, hstrict] at h
  cases h

theorem bind_note_ne_ok (hstrict : s.exhaustive = false) {x : Walk α} {reason : α → Reason} :
    (x >>= fun found => s.note (reason found) n) st ≠ .ok a st' := by
  intro h
  obtain ⟨_, _, _, hnote⟩ := Run.of_bind_ok h
  exact note_ne_ok hstrict hnote

theorem reject_ne_ok (hstrict : s.exhaustive = false) {reason : Reason} :
    s.reject go reason n sc st ≠ .ok a st' := by
  rw [reject_eq_note hstrict]
  exact note_ne_ok hstrict

theorem within_of_check {x : Walk Unit} (hx : ∀ st last, x st ≠ .ok () last) {c : Option ClassId}
    (h : (if s.isForeign c then x else pure () : Walk Unit) st = .ok () st') :
    ∃ k, c = some k ∧ s.table.declaredWithin k s.method = true := by
  by_cases hforeign : s.isForeign c = true
  · rw [if_pos hforeign] at h
    exact absurd h (hx st st')
  · cases c with
    | none => exact absurd rfl hforeign
    | some k =>
      rw [isForeign_some, Bool.not_eq_false] at hforeign
      exact ⟨k, rfl, hforeign⟩

theorem visitReceiver_eq (st : WalkState) :
    s.visitReceiver n sc st =
      (if s.isForeign (st.scopes.innermostClass sc) then s.note (.uses n.kind) n else pure () :
        Walk Unit) st :=
  rfl

theorem whole_of_visitCode (hstrict : s.exhaustive = false)
    (h : s.visitCode go n sc st = .ok a st') : n.isBroken = false := by
  cases hbroken : n.isBroken with
  | false => rfl
  | true =>
    rw [visitCode, if_pos hbroken] at h
    exact absurd h (reject_ne_ok hstrict)

end Subject

theorem Node.construct_eq_receiver {n : Node} :
    n.construct = .receiver ↔ n.kind = "this" ∨ n.kind = "super" := by
  rw [Node.construct]
  generalize n.kind = kind
  constructor
  · intro h
    unfold Construct.ofKind at h
    split at h
    · rename_i hspecial
      unfold Construct.ofSpecial? at hspecial
      split at hspecial <;> cases hspecial <;> first | exact .inl rfl | exact .inr rfl | cases h
    · cases h
    · split at h
      · cases h
      · split at h <;> cases h
  · rintro (rfl | rfl) <;> rfl

/-- what is evaluated as its plan says -/
def Construct.isPlanned : Construct → Bool
  | .inert | .identifier | .receiver | .fieldAccess | .invocation | .methodReference
  | .constructorCall | .creation | .unknown => false
  | _ => true

theorem Subject.evaluate_planned {s : Subject} {go : Onward} {n : Node} {sc : ScopeId}
    {construct : Construct} (hplanned : construct.isPlanned = true) :
    s.evaluate go n sc construct = s.visitSteps go sc sc n.plan := by
  cases construct <;> first | rfl | cases hplanned

namespace Table

variable {t : Table} {scopes s' : Scopes} {m : MethodId} {edges : List MethodId} {own : Bool}
  {n : Node}

section
variable (h : t.Sees scopes m own n) (clear : t.classify scopes m = .ok (.clear edges, s'))
  (hnamed : n.named = true)
include h clear hnamed

theorem Sees.runs :
    ∃ depth sc st last, t.Inspects scopes m (depth + 1) (.code n sc) st ∧
      (own = true → ∃ around, st.scopes.Stands sc (m.owner :: around)) ∧
      (∀ go, visitRegion { table := t, method := m } go (.code n sc) =
        evaluate { table := t, method := m } go n sc n.construct) ∧
      evaluate { table := t, method := m }
        (walkRegion { table := t, method := m } depth) n sc n.construct st = .ok () last := by
  obtain ⟨depth, sc, st, hinspects, hown⟩ := h
  obtain ⟨below, last, rfl, hran⟩ := hinspects.runs clear
  have hwalk : ∀ go, visitRegion { table := t, method := m } go (.code n sc) = _ :=
    fun go => visitCode_eq (whole_of_visitCode rfl hran) hnamed
  rw [hwalk] at hran
  exact ⟨below, sc, st, last, hinspects, hown, hwalk, hran⟩

theorem Sees.not_receiver (hforeign : t.declaredWithin m.owner m = false) (hown : own = true) :
    n.construct ≠ .receiver := by
  intro hconstruct
  obtain ⟨depth, sc, st, last, _, hstands, _, hran⟩ := h.runs clear hnamed
  obtain ⟨around, hstands⟩ := hstands hown
  have hinner : st.scopes.innermostClass sc = some m.owner := hstands.innermostClass
  rw [hconstruct, evaluate, visitReceiver_eq, hinner,
    if_pos ((isForeign_some _ _).mpr hforeign)] at hran
  exact note_ne_ok rfl hran

theorem Sees.planned (hplanned : n.construct.isPlanned = true) :
    ∃ depth sc st, t.Inspects scopes m (depth + 1) (.code n sc) st ∧
      (own = true → ∃ around, st.scopes.Stands sc (m.owner :: around)) ∧
      Includes (walkRegion { table := t, method := m } depth)
        (fun go => visitRegion { table := t, method := m } go (.code n sc)) st
        (fun go => visitSteps { table := t, method := m } go sc sc n.plan) st := by
  obtain ⟨depth, sc, st, last, hinspects, hstands, hwalk, hran⟩ := h.runs clear hnamed
  simp only [evaluate_planned hplanned] at hwalk hran
  refine ⟨depth, sc, st, hinspects, hstands, ?_⟩
  simp only [hwalk]
  exact ⟨⟨_, _, hran⟩, .refl _, fun _ _ hmeets => hmeets⟩

theorem Sees.visit (hplanned : n.construct.isPlanned = true) (hstep : .visit part place ∈ n.plan) :
    t.Sees scopes m own part := by
  obtain ⟨depth, sc, st, hinspects, hstands, hincludes⟩ := h.planned clear hnamed hplanned
  obtain ⟨sc', met, hpart, hkeeps⟩ := hinspects.visit hincludes hstep
  refine ⟨depth, sc', met, hpart, fun hown => ?_⟩
  obtain ⟨around, hsc⟩ := hstands hown
  exact ⟨around, hkeeps _ hsc⟩

theorem Sees.localClass {kind : ClassKind} (hconstruct : n.construct = .classDeclaration kind) :
    ∃ c, t.classFor n = some c ∧ t.SeesBody scopes m c := by
  have hplanned : n.construct.isPlanned = true := by rw [hconstruct]; rfl
  obtain ⟨depth, sc, st, hinspects, _, hincludes⟩ := h.planned clear hnamed hplanned
  refine hinspects.localClass hincludes ?_
  rw [Node.plan, hconstruct]
  exact List.mem_singleton_self _

theorem Sees.constructorCall (hconstruct : n.construct = .constructorCall) (hpart : part ∈ n.namedChildren)
    (hreceiver : part.construct ≠ .receiver) (htype : isTypeKind part.kind = false) :
    t.Sees scopes m own part := by
  obtain ⟨depth, sc, st, last, hinspects, hstands, hwalk, hran⟩ := h.runs clear hnamed
  simp only [hconstruct, evaluate, visitConstructorCall] at hwalk hran
  have hmem : part ∈ n.namedChildren.filter fun c =>
      c.construct != .receiver && !isTypeKind c.kind := by
    rw [List.mem_filter]
    exact ⟨hpart, by simp [hreceiver, htype]⟩
  obtain ⟨st₁, hincludes⟩ := includes_forM
    (fun c _ => uniform_go { table := t, method := m } (.code c sc)) hran hmem
  refine ⟨depth, sc, st₁, hinspects.onward ?_, fun hown => ?_⟩
  · simp only [hwalk]
    exact hincludes.meets _ _ meets_go
  · obtain ⟨around, hsc⟩ := hstands hown
    exact ⟨around, hsc.grows hincludes.grows⟩

theorem Sees.creation (hconstruct : n.construct = .creation) :
    ∃ depth sc st st₁, t.Inspects scopes m (depth + 1) (.code n sc) st ∧
      (own = true → ∃ around, st.scopes.Stands sc (m.owner :: around)) ∧
      Includes (walkRegion { table := t, method := m } depth)
        (fun go => visitRegion { table := t, method := m } go (.code n sc)) st
        (fun go => visitOuterInstance { table := t, method := m } go n sc) st ∧
      Includes (walkRegion { table := t, method := m } depth)
        (fun go => visitRegion { table := t, method := m } go (.code n sc)) st
        (fun go => visitSteps { table := t, method := m } go sc sc
          (n.creationSteps (n.namedChildren.eraseP isQualifier))) st₁ := by
  obtain ⟨depth, sc, st, last, hinspects, hstands, hwalk, hran⟩ := h.runs clear hnamed
  simp only [hconstruct, evaluate, visitCreation] at hwalk hran
  obtain ⟨_, st₁, hfirst, hrest⟩ := Run.of_bind_ok hran
  have huniform := uniform_visitOuterInstance { table := t, method := m } n sc
  refine ⟨depth, sc, st, st₁, hinspects, hstands, ?_, ?_⟩
  · simp only [hwalk]
    exact Includes.first hran
  · simp only [hwalk]
    exact Includes.second huniform.steady hfirst (huniform.grows hfirst) hrest

theorem Sees.anonymousClass (hconstruct : n.construct = .creation) (hbody : body ∈ n.namedChildren)
    (hkind : body.kind = "class_body") : ∃ c, t.classFor n = some c ∧ t.SeesBody scopes m c := by
  obtain ⟨depth, sc, st, st₁, hinspects, _, _, hincludes⟩ := h.creation clear hnamed hconstruct
  have hqualifier : ¬ isQualifier body = true := by simp [isQualifier, hkind]
  have hrest : body ∈ n.namedChildren.eraseP isQualifier :=
    (List.mem_eraseP_of_neg hqualifier).mpr hbody
  have hstep : .anonymousClass n body ∈ n.creationSteps (n.namedChildren.eraseP isQualifier) := by
    refine List.mem_map.mpr ⟨body, List.mem_filter.mpr ⟨hrest, by rw [hkind]; decide⟩, ?_⟩
    rw [hkind]
    rfl
  exact hinspects.anonymousClass hincludes hstep

theorem Sees.creationPart (hforeign : t.declaredWithin m.owner m = false)
    (hconstruct : n.construct = .creation) (hpart : part ∈ n.namedChildren)
    (htype : isTypeKind part.kind = false) (hbody : part.kind ≠ "class_body") :
    t.Handles scopes m own part := by
  obtain ⟨depth, sc, st, st₁, hinspects, hstands, houter, hincludes⟩ :=
    h.creation clear hnamed hconstruct
  rcases Node.find?_or_mem_eraseP (p := isQualifier) hpart with hfirst | hrest
  · obtain ⟨_, last, hran⟩ := houter.ran
    have hmeets := houter.meets
    simp only [visitOuterInstance, hfirst] at hran hmeets
    by_cases hthis : (part.kind == "this") = true
    · rw [if_pos hthis] at hran
      refine .receiver (Node.construct_eq_receiver.mpr (.inl (eq_of_beq hthis))) ?_
      cases own with
      | false => rfl
      | true =>
        obtain ⟨around, hsc⟩ := hstands rfl
        have hchecked : (if Subject.isForeign { table := t, method := m }
            (st.scopes.innermostClass sc) then Subject.note { table := t, method := m }
            .createsWithThis n else pure () : Walk Unit) st = .ok () last := hran
        rw [hsc.innermostClass, List.head?_cons,
          if_pos ((isForeign_some _ _).mpr hforeign)] at hchecked
        exact absurd hchecked (note_ne_ok rfl)
    · simp only [if_neg hthis] at hmeets
      exact .seen ⟨depth, sc, st, hinspects.onward (hmeets _ _ meets_go), hstands⟩
  · have hstep : .visit part .here ∈ n.creationSteps (n.namedChildren.eraseP isQualifier) := by
      refine List.mem_map.mpr ⟨part, List.mem_filter.mpr ⟨hrest, by rw [htype]; rfl⟩, ?_⟩
      rw [if_neg (by simpa using hbody)]
    obtain ⟨sc', met, hmet, hkeeps⟩ := hinspects.visit hincludes hstep
    refine .seen ⟨depth, sc', met, hmet, fun hown => ?_⟩
    obtain ⟨around, hsc⟩ := hstands hown
    exact ⟨around, hkeeps _ (hsc.grows hincludes.grows)⟩

end

/-! ## receivers -/

end Table

namespace Subject

variable {s : Subject} {object n : Node} {sc : ScopeId} {st : WalkState}

theorem receiverOf_this (h : object.kind = "this") :
    s.receiverOf object n sc st = .ok (some (.this, st.scopes.innermostClass sc)) st := by
  unfold receiverOf
  rw [h]
  rfl

theorem receiverOf_super (h : object.kind = "super") :
    s.receiverOf object n sc st = .ok (some (.super, st.scopes.innermostClass sc)) st := by
  unfold receiverOf
  rw [h]
  rfl

theorem field_of_isThisAccess (h : isThisAccess n = true) :
    ∃ field, n.child? "field" = some field ∧ field.kind = "this" := by
  rw [isThisAccess, Bool.and_eq_true, beq_iff_eq, beq_iff_eq, Node.childKind] at h
  cases hfield : n.child? "field" with
  | none =>
    rw [hfield] at h
    exact absurd h.2 (by decide)
  | some field =>
    rw [hfield] at h
    exact ⟨field, rfl, h.2⟩

section
variable (hobject : object.construct ≠ .receiver)
include hobject

theorem kind_of_not_receiver : (object.kind == "this") = false ∧ (object.kind == "super") = false := by
  rw [ne_eq, Node.construct_eq_receiver, not_or] at hobject
  exact ⟨beq_eq_false_iff_ne.mpr hobject.1, beq_eq_false_iff_ne.mpr hobject.2⟩

theorem receiverOf_superOf (h : (n.namedBut "object").any (·.kind == "super") = true) :
    s.receiverOf object n sc =
      s.qualifiedClass (some object) sc >>= fun c => pure (some (.super, c)) := by
  unfold receiverOf
  simp only [kind_of_not_receiver hobject, h, Bool.false_eq_true, if_false, if_true]

theorem receiverOf_thisOf (h : (n.namedBut "object").any (·.kind == "super") = false)
    (hthis : isThisAccess object = true) :
    s.receiverOf object n sc =
      s.qualifiedClass (object.child? "object") sc >>= fun c => pure (some (.this, c)) := by
  unfold receiverOf
  simp only [kind_of_not_receiver hobject, h, hthis, Bool.false_eq_true, if_false, if_true]

theorem receiverOf_other (h : (n.namedBut "object").any (·.kind == "super") = false)
    (hthis : isThisAccess object = false) : s.receiverOf object n sc = pure none := by
  unfold receiverOf
  simp only [kind_of_not_receiver hobject, h, hthis, Bool.false_eq_true, if_false]

end

end Subject

namespace Table

variable {t : Table} {scopes s' : Scopes} {m : MethodId} {edges : List MethodId} {own : Bool}
  {n : Node} {sc : ScopeId} {depth : Nat}

/-- what the walk finds out about the object `object` of an access or call `n` -/
structure Receives (t : Table) (scopes : Scopes) (m : MethodId) (own : Bool) (n object : Node) :
    Prop where
  superOf : object.construct ≠ .receiver → (n.namedBut "object").any (·.kind == "super") = true →
    t.ResolvesInside scopes m n object
  handles : object.construct = .receiver ∨ (n.namedBut "object").any (·.kind == "super") = false →
    t.Handles scopes m own object

theorem resolveTypeText_empty (s : Scopes) (sc : ScopeId) : t.resolveTypeText s sc "" = none := by
  have hclean : TypeName.clean "" = "" := by decide +kernel
  rw [resolveTypeText, if_pos hclean]

theorem ResolvesInside.of_qualifiedClass {place n : Node} {st last : WalkState} {outer : Option Node}
    {c : ClassId} (h : t.Inspects scopes m depth (.code place sc) st)
    (hplace : place = n ∨ n ∈ place.children)
    (hran : qualifiedClass { table := t, method := m } outer sc st = .ok (some c) last)
    (hwithin : t.declaredWithin c m = true) : ∃ o, outer = some o ∧ t.ResolvesInside scopes m n o := by
  obtain ⟨written, st₁, htext, hresolved⟩ := Run.of_bind_ok hran
  obtain ⟨hwritten, rfl⟩ := lift_ok htext
  have hclass : (t.resolveTypeText st₁.scopes sc written).bind (·.cls) = some c := by
    injection hresolved
  obtain ⟨ref, href, hcls⟩ := Option.bind_eq_some_iff.mp hclass
  cases outer with
  | none =>
    cases hwritten
    rw [resolveTypeText_empty] at href
    cases href
  | some o =>
    exact ⟨o, rfl, depth, place, sc, st₁, written, ref, c, h, hplace, hwritten, href, hcls, hwithin⟩

/-- An access or call that judges its object first and goes on as `next` says. -/
theorem receives_of_includes {object : Node} {st : WalkState}
    {next : Onward → Option (Receiver × Option ClassId) → Walk Unit}
    (h : t.Inspects scopes m (depth + 1) (.code n sc) st)
    (hstands : own = true → ∃ around, st.scopes.Stands sc (m.owner :: around))
    (hforeign : t.declaredWithin m.owner m = false) (hobject : object ∈ n.children)
    (hincludes : Includes (walkRegion { table := t, method := m } depth)
      (fun go => visitRegion { table := t, method := m } go (.code n sc)) st
      (fun go => receiverOf { table := t, method := m } object n sc >>= next go) st)
    (hnone : ∀ go, next go none = go (.code object sc))
    (hsome : ∀ go receiver c st last, next go (some (receiver, c)) st = .ok () last →
      ∃ k, c = some k ∧ t.declaredWithin k m = true) :
    t.Receives scopes m own n object := by
  obtain ⟨_, last, hran⟩ := hincludes.ran
  refine ⟨fun hreceiver hsuper => ?_, fun hplain => ?_⟩
  · rw [receiverOf_superOf hreceiver hsuper] at hran
    obtain ⟨_, st₁, hfound, hnext⟩ := Run.of_bind_ok hran
    obtain ⟨c, st₂, hclass, hdone⟩ := Run.of_bind_ok hfound
    cases hdone
    obtain ⟨k, rfl, hwithin⟩ := hsome _ _ _ _ _ hnext
    obtain ⟨outer, houter, hresolves⟩ :=
      ResolvesInside.of_qualifiedClass h (.inl rfl) hclass hwithin
    cases houter
    exact hresolves
  by_cases hreceiver : object.construct = .receiver
  · refine .receiver hreceiver ?_
    cases own with
    | false => rfl
    | true =>
      obtain ⟨around, hsc⟩ := hstands rfl
      have hinner : ∃ receiver, receiverOf { table := t, method := m } object n sc st =
          .ok (some (receiver, some m.owner)) st := by
        rw [← show st.scopes.innermostClass sc = some m.owner from hsc.innermostClass]
        rcases Node.construct_eq_receiver.mp hreceiver with hthis | hsuper
        · exact ⟨.this, receiverOf_this hthis⟩
        · exact ⟨.super, receiverOf_super hsuper⟩
      obtain ⟨receiver, hfound⟩ := hinner
      rw [Run.bind_of_ok hfound] at hran
      obtain ⟨k, hk, hwithin⟩ := hsome _ _ _ _ _ hran
      cases hk
      rw [hforeign] at hwithin
      cases hwithin
  have hsuper := hplain.resolve_left hreceiver
  cases hthis : isThisAccess object with
  | true =>
    rw [receiverOf_thisOf hreceiver hsuper hthis] at hran
    obtain ⟨_, st₁, hfound, hnext⟩ := Run.of_bind_ok hran
    obtain ⟨c, st₂, hclass, hdone⟩ := Run.of_bind_ok hfound
    cases hdone
    obtain ⟨k, rfl, hwithin⟩ := hsome _ _ _ _ _ hnext
    obtain ⟨outer, houter, hresolves⟩ :=
      ResolvesInside.of_qualifiedClass h (.inr hobject) hclass hwithin
    exact .thisAccess hthis houter hresolves
  | false =>
    refine .seen ⟨depth, sc, st, h.onward (hincludes.meets _ _ ?_), hstands⟩
    intro go' halt last' hsevered
    simp only [receiverOf_other hreceiver hsuper hthis, pure_bind, hnone]
    exact hsevered.there

theorem ResolvesInside.of_thisAccess {place n field : Node} {go : Onward} {st last : WalkState}
    (h : t.Inspects scopes m depth (.code place sc) st) (hplace : place = n ∨ n ∈ place.children)
    (hfield : n.child? "field" = some field) (hthis : field.kind = "this")
    (hran : visitFieldAccess { table := t, method := m } go n sc st = .ok () last) :
    ∃ outer, n.child? "object" = some outer ∧ t.ResolvesInside scopes m n outer := by
  cases hobject : n.child? "object" with
  | none =>
    simp only [visitFieldAccess, hobject] at hran
    exact absurd hran (reject_ne_ok rfl)
  | some object =>
    simp only [visitFieldAccess, hobject, hfield, hthis, beq_self_eq_true, if_true] at hran
    obtain ⟨c, st₁, hclass, hchecked⟩ := Run.of_bind_ok hran
    obtain ⟨k, rfl, hwithin⟩ := within_of_check (fun _ _ => bind_note_ne_ok rfl) hchecked
    obtain ⟨outer, houter, hresolves⟩ :=
      ResolvesInside.of_qualifiedClass h hplace hclass hwithin
    cases houter
    exact ⟨object, rfl, hresolves⟩

section
variable (h : t.Sees scopes m own n) (clear : t.classify scopes m = .ok (.clear edges, s'))
  (hnamed : n.named = true)
include h clear hnamed

theorem Sees.fieldAccess (hforeign : t.declaredWithin m.owner m = false)
    (hconstruct : n.construct = .fieldAccess) :
    ∃ object field, n.child? "object" = some object ∧ n.child? "field" = some field ∧
      (field.kind = "this" → t.ResolvesInside scopes m n object) ∧
      (field.kind ≠ "this" → t.Receives scopes m own n object) := by
  obtain ⟨depth, sc, st, last, hinspects, hstands, hwalk, hran⟩ := h.runs clear hnamed
  simp only [hconstruct, evaluate] at hwalk hran
  cases hobject : n.child? "object" with
  | none =>
    simp only [visitFieldAccess, hobject] at hran
    exact absurd hran (reject_ne_ok rfl)
  | some object =>
    cases hfield : n.child? "field" with
    | none =>
      simp only [visitFieldAccess, hobject, hfield] at hran
      exact absurd hran (reject_ne_ok rfl)
    | some field =>
      refine ⟨object, field, rfl, rfl, fun hthis => ?_, fun hthis => ?_⟩
      · obtain ⟨outer, houter, hresolves⟩ :=
          ResolvesInside.of_thisAccess hinspects (.inl rfl) hfield hthis hran
        rw [hobject] at houter
        cases houter
        exact hresolves
      · simp only [visitFieldAccess, hobject, hfield, if_neg (mt beq_iff_eq.mp hthis)] at hwalk hran
        have hincludes := Includes.of_eq hwalk hran
        refine receives_of_includes hinspects hstands hforeign (Node.mem_of_child? hobject) hincludes
          (fun _ => rfl) fun go receiver c st' last' hnext => ?_
        cases c with
        | none => exact absurd hnext (bind_note_ne_ok rfl)
        | some c => exact within_of_check (fun _ _ => bind_note_ne_ok rfl) hnext

theorem Sees.invocation (hforeign : t.declaredWithin m.owner m = false)
    (hconstruct : n.construct = .invocation) :
    (∀ object, n.child? "object" = some object → t.Receives scopes m own n object) ∧
      (∀ arguments, n.child? "arguments" = some arguments → t.Sees scopes m own arguments) := by
  obtain ⟨depth, sc, st, last, hinspects, hstands, hwalk, hran⟩ := h.runs clear hnamed
  simp only [hconstruct, evaluate, visitInvocation] at hwalk hran
  obtain ⟨name, st₁, hname, hcalled⟩ := Run.of_bind_ok hran
  obtain ⟨_, st₂, hcallee, harguments⟩ := Run.of_bind_ok hcalled
  obtain ⟨_, rfl⟩ := lift_ok hname
  have huniform := uniform_visitCallee { table := t, method := m } n sc name
  have hcall := (Includes.of_eq hwalk hran).trans
    (Includes.second (steady_const _) hname (.refl _) hcalled)
  refine ⟨fun object hobject => ?_, fun arguments hargs => ?_⟩
  · have hincludes := hcall.trans (Includes.first hcalled)
    simp only [visitCallee, hobject] at hincludes
    refine receives_of_includes hinspects hstands hforeign (Node.mem_of_child? hobject) hincludes
      (fun _ => rfl) fun go receiver c st' last' hnext => ?_
    cases c with
    | none => exact absurd hnext (note_ne_ok rfl)
    | some c => exact within_of_check (fun _ _ => bind_note_ne_ok rfl) hnext
  · have hincludes := hcall.trans
      (Includes.second huniform.steady hcallee (huniform.grows hcallee) harguments)
    simp only [hargs] at hincludes
    refine ⟨depth, sc, st₂, hinspects.onward (hincludes.meets _ _ meets_go), fun hown => ?_⟩
    obtain ⟨around, hsc⟩ := hstands hown
    exact ⟨around, hsc.grows hincludes.grows⟩

theorem Sees.methodReference (hforeign : t.declaredWithin m.owner m = false)
    (hconstruct : n.construct = .methodReference) :
    ∃ target others, n.namedChildren = target :: others ∧
      (target.construct ≠ .receiver → isThisAccess target = false →
        others.any (·.kind == "super") = true → t.ResolvesInside scopes m n target) ∧
      (target.construct = .receiver ∨ isThisAccess target = true ∨
        (others.any (·.kind == "super") = false ∧ isTypeKind target.kind = false ∧
          target.isIdentifier = false ∧ n.children.any (·.kind == "new") = false) →
        t.Handles scopes m own target) := by
  obtain ⟨depth, sc, st, last, hinspects, hstands, hwalk, hran⟩ := h.runs clear hnamed
  simp only [hconstruct, evaluate, visitMethodReference] at hwalk hran
  cases hparts : n.namedChildren with
  | nil =>
    rw [hparts] at hran
    exact absurd hran (note_ne_ok rfl)
  | cons target others =>
    simp only [hparts] at hwalk hran
    have htarget : target ∈ n.children :=
      Node.mem_of_mem_namedChildren (hparts ▸ List.mem_cons_self)
    refine ⟨target, others, rfl, fun hreceiver hthis hsuper => ?_, fun hplain => ?_⟩
    · simp only [beq_eq_false_iff_ne.mpr hreceiver, hthis, hsuper, Bool.false_eq_true, if_false,
        if_true] at hran
      obtain ⟨c, st₁, hclass, hchecked⟩ := Run.of_bind_ok hran
      obtain ⟨k, rfl, hwithin⟩ := within_of_check (fun _ _ => bind_note_ne_ok rfl) hchecked
      obtain ⟨outer, houter, hresolves⟩ :=
        ResolvesInside.of_qualifiedClass hinspects (.inl rfl) hclass hwithin
      cases houter
      exact hresolves
    by_cases hreceiver : target.construct = .receiver
    · refine .receiver hreceiver ?_
      cases own with
      | false => rfl
      | true =>
        obtain ⟨around, hsc⟩ := hstands rfl
        rw [if_pos (beq_iff_eq.mpr hreceiver), visitReceiver_eq, hsc.innermostClass, List.head?_cons,
          if_pos ((isForeign_some _ _).mpr hforeign)] at hran
        exact absurd hran (note_ne_ok rfl)
    cases hthis : isThisAccess target with
    | true =>
      simp only [beq_eq_false_iff_ne.mpr hreceiver, hthis, Bool.false_eq_true, if_false,
        if_true] at hran
      obtain ⟨field, hfield, hkind⟩ := field_of_isThisAccess hthis
      obtain ⟨outer, houter, hresolves⟩ :=
        ResolvesInside.of_thisAccess hinspects (.inr htarget) hfield hkind hran
      exact .thisAccess hthis houter hresolves
    | false =>
      obtain ⟨hsuper, htype, hidentifier, hnew⟩ :=
        (hplain.resolve_left hreceiver).resolve_left (by rw [hthis]; exact Bool.false_ne_true)
      simp only [beq_eq_false_iff_ne.mpr hreceiver, hthis, hsuper, htype, hidentifier, hnew,
        Bool.false_eq_true, if_false, Bool.false_or] at hwalk hran
      refine .seen ⟨depth, sc, st, hinspects.onward ?_, hstands⟩
      simp only [hwalk]
      by_cases hlisted : ["identifier", "scoped_identifier", "field_access"].contains target.kind = true
      · simp only [hlisted, if_true] at hran ⊢
        obtain ⟨written, st₁, htext, _⟩ := Run.of_bind_ok hran
        obtain ⟨_, rfl⟩ := lift_ok htext
        exact Meets.after (steady_const _) htext meets_go
      · simp only [hlisted] at hran ⊢
        exact meets_go

end

/-! ## members of classes declared inside -/

/-- the inspection of `m` goes over a member of a class -/
def SeesMember (t : Table) (scopes : Scopes) (m : MethodId) (c : ClassId) (member : Node) : Prop :=
  ∃ depth st st₁, t.Inspects scopes m (depth + 1) (.body c) st ∧
    Includes (Subject.walkRegion { table := t, method := m } depth)
      (fun go => Subject.visitRegion { table := t, method := m } go (.body c)) st
      (fun go => Subject.visitMember { table := t, method := m } go (t.decl c) member) st₁

theorem SeesBody.member {c : ClassId} {member : Node} (h : t.SeesBody scopes m c)
    (clear : t.classify scopes m = .ok (.clear edges, s')) (hbody : (t.decl c).body = some body)
    (hmember : member ∈ memberNodes body) : t.SeesMember scopes m c member := by
  obtain ⟨depth, st, hinspects⟩ := h
  obtain ⟨below, last, rfl, hran⟩ := hinspects.runs clear
  have hwalk : ∀ go, visitRegion { table := t, method := m } go (.body c) =
      (memberNodes body).forM (visitMember { table := t, method := m } go (t.decl c)) := by
    intro go
    simp only [visitRegion, visitBody, hbody, Option.map_some, Option.getD_some]
  rw [hwalk] at hran
  have huniform : ∀ other ∈ memberNodes body, Uniform t fun go =>
      visitMember { table := t, method := m } go (t.decl c) other :=
    fun _ hother K _ _ henters _ _ hgo =>
      Lockstep.runs_visitMember (s := { table := t, method := m }) hgo
        (K.admission.member (henters _) hbody hother)
  obtain ⟨st₁, hincludes⟩ := includes_forM (s := { table := t, method := m }) huniform hran hmember
  exact ⟨below, st, st₁, hinspects, (Includes.of_eq hwalk hran).trans hincludes⟩

section
variable {c : ClassId} {member : Node} (h : t.SeesMember scopes m c member)
include h

theorem SeesMember.field (hkind : MemberKind.ofKind member.kind = .field) {d value : Node}
    (hd : d ∈ member.childrenAt "declarator") (hvalue : d.child? "value" = some value) :
    t.Sees scopes m false value := by
  obtain ⟨depth, st, st₁, hinspects, hincludes⟩ := h
  simp only [visitMember, hkind] at hincludes
  obtain ⟨_, last, hran⟩ := hincludes.ran
  obtain ⟨scope, st₂, hopen, hsteps⟩ := Run.of_bind_ok hran
  have hstep : .visit value (.fresh .here Scopes.blockLabel []) ∈ member.declaratorSteps .here := by
    refine List.mem_flatMap.mpr ⟨d, hd, List.mem_append_right _ ?_⟩
    rw [Node.visitField, hvalue]
    exact List.mem_singleton_self _
  have hgrows : st₁.scopes.Grows st₂.scopes := by
    cases hopen
    exact st₁.scopes.grows_child _ _
  obtain ⟨sc', met, hmet, _⟩ := hinspects.visit
    (hincludes.trans (Includes.second (steady_const _) hopen hgrows hsteps)) hstep
  exact ⟨depth, sc', met, hmet, nofun⟩

theorem SeesMember.method (hkind : MemberKind.ofKind member.kind = .method)
    (hbody : member.child? "body" = some body) : t.Sees scopes m false body := by
  obtain ⟨depth, st, st₁, hinspects, hincludes⟩ := h
  simp only [visitMember, hkind, visitInnerMethod, hbody] at hincludes
  obtain ⟨_, last, hran⟩ := hincludes.ran
  obtain ⟨_, st₂, hget, hlifted⟩ := Run.of_bind_ok hran
  obtain ⟨⟨scope, opened⟩, st₃, hopen, hset⟩ := Run.of_bind_ok hlifted
  obtain ⟨_, st₄, hscopes, _⟩ := Run.of_bind_ok hset
  refine ⟨depth, scope, st₄, hinspects.onward (hincludes.meets _ _ ?_), nofun⟩
  refine Meets.after (steady_const _) hget (Meets.after (steady_const _) hopen ?_)
  exact Meets.after (steady_const _) hscopes meets_go

theorem SeesMember.block (hkind : MemberKind.ofKind member.kind = .block) :
    t.Sees scopes m false member := by
  obtain ⟨depth, st, st₁, hinspects, hincludes⟩ := h
  simp only [visitMember, hkind] at hincludes
  exact ⟨depth, _, st₁, hinspects.onward (hincludes.meets _ _ meets_go), nofun⟩

theorem SeesMember.staticBlock (hkind : MemberKind.ofKind member.kind = .staticBlock)
    (hpart : part ∈ member.namedChildren) : t.Sees scopes m false part := by
  obtain ⟨depth, st, st₁, hinspects, hincludes⟩ := h
  simp only [visitMember, hkind] at hincludes
  obtain ⟨_, last, hran⟩ := hincludes.ran
  obtain ⟨st₂, hwalked⟩ := includes_forM
    (fun c' _ => uniform_go { table := t, method := m } (.code c' (t.decl c).scope)) hran hpart
  exact ⟨depth, _, st₂, hinspects.onward ((hincludes.trans hwalked).meets _ _ meets_go), nofun⟩

theorem SeesMember.nested {kind : ClassKind} (hkind : MemberKind.ofKind member.kind = .nested kind)
    {c' : ClassId} (hclass : t.classFor member = some c') : t.SeesBody scopes m c' := by
  obtain ⟨depth, st, st₁, hinspects, hincludes⟩ := h
  simp only [visitMember, hkind, hclass] at hincludes
  exact ⟨depth, st₁, hinspects.onward (hincludes.meets _ _ meets_go)⟩

theorem SeesMember.constant (hkind : MemberKind.ofKind member.kind = .constant) :
    (∀ arguments, member.child? "arguments" = some arguments → t.Sees scopes m false arguments) ∧
      (∀ c', t.classFor member = some c' → t.SeesBody scopes m c') := by
  obtain ⟨depth, st, st₁, hinspects, hincludes⟩ := h
  simp only [visitMember, hkind] at hincludes
  obtain ⟨_, last, hran⟩ := hincludes.ran
  have huniform : Uniform t fun go => visitConstantArguments go (t.decl c) member :=
    fun _ _ _ henters _ _ hgo =>
      Lockstep.runs_visitConstantArguments (s := { table := t, method := m }) hgo (fun _ _ _ _ => henters _) c
  obtain ⟨_, st₂, hfirst, hrest⟩ := Run.of_bind_ok hran
  refine ⟨fun arguments harguments => ?_, fun c' hclass => ?_⟩
  · have hpart := hincludes.trans (Includes.first hran)
    simp only [visitConstantArguments, harguments] at hpart hfirst
    obtain ⟨scope, st₃, hopen, _⟩ := Run.of_bind_ok hfirst
    exact ⟨depth, scope, st₃, hinspects.onward
      (hpart.meets _ _ (Meets.after (steady_const _) hopen meets_go)), nofun⟩
  · have hgrows : st₁.scopes.Grows st₂.scopes :=
      Uniform.grows (s := { table := t, method := m }) huniform hfirst
    have hnested := hincludes.trans (Includes.second huniform.steady hfirst hgrows hrest)
    simp only [hclass] at hnested
    exact ⟨depth, st₂, hinspects.onward (hnested.meets _ _ meets_go)⟩

end

end Table

end StaticPromotion
