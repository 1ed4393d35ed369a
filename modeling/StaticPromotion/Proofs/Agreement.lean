import StaticPromotion.Proofs.Blocks
import StaticPromotion.Proofs.Halting
import StaticPromotion.Proofs.Receivers

/-!
# Two passes over the same code

An inspection goes over code that the pass over the unit has gone over before, and both carry out the same plans. So what the
inspection meets is what the pass has met: a class there is in the table, it was entered in the same code, and the levels that it
captured are those that the inspection has opened around it.

* `Subject.CodeAt`, `Subject.BodyAt`   how the inspection stands to the pass at some code, and at a class: also that the bound
                               on its depth is not reached;
* `Subject.Works b go`         a way on that, with the depth `b` left, comes to no excluded halt and keeps in step;
* `Subject.Works.visitSteps`   so do the steps of a plan;
* `Subject.CodeAt.visitCode`   so does every construct, with the steps of its plan or, if it has no statements, its parts.
-/

namespace StaticPromotion

open Table

/-! ## texts that were read once can be read again -/

namespace Scopes

variable {a b b' : Scopes} {source : SourceUnit} {names : List Node}

theorem declareNodes_of_ok {y : ScopeId} (h : b.declareNodes source y names = .ok b') (a : Scopes)
    (x : ScopeId) : ∃ a', a.declareNodes source x names = .ok a' := by
  obtain ⟨texts, htexts, _⟩ := Run.of_except_bind h
  exact ⟨a.declareAll x texts, by rw [declareNodes, htexts]; rfl⟩

theorem childDeclaring_of_ok {y v : ScopeId} {label : String}
    (h : b.childDeclaring source y label names = .ok (v, b')) (a : Scopes) (x : ScopeId)
    (label' : String) : ∃ u a', a.childDeclaring source x label' names = .ok (u, a') := by
  obtain ⟨_, hnames, _⟩ := Run.of_except_bind h
  obtain ⟨a', ha⟩ := declareNodes_of_ok hnames (a.child x label').2 (a.child x label').1
  refine ⟨(a.child x label').1, a', ?_⟩
  show ((a.child x label').2.declareNodes source (a.child x label').1 names >>= fun s =>
    pure ((a.child x label').1, s)) = _
  rw [ha]
  rfl

end Scopes

theorem Place.locate_of_ok {source : SourceUnit} {place : Place} {y j v : ScopeId} {b b' : Scopes}
    (h : place.locate source y j b = .ok (v, b')) (x i : ScopeId) (a : Scopes) :
    ∃ u a', place.locate source x i a = .ok (u, a') := by
  induction place generalizing v b' with
  | here => exact ⟨x, a, rfl⟩
  | inner => exact ⟨i, a, rfl⟩
  | fresh below label names ih =>
    obtain ⟨⟨parent, b₁⟩, hbelow, hopen⟩ := Run.of_except_bind h
    obtain ⟨parent', a₁, hbelow'⟩ := ih hbelow
    obtain ⟨u, a', hopen'⟩ := Scopes.childDeclaring_of_ok hopen a₁ parent' label
    refine ⟨u, a', ?_⟩
    rw [Place.locate, hbelow']
    exact hopen'

/-- a step that leaves no code to go on to -/
theorem Step.perform_of_ok {source : SourceUnit} {step : Step} {y j : ScopeId} {b : Scopes}
    {q : Progress} (h : step.perform source y j b = .ok q) (x i : ScopeId) (a : Scopes) :
    ∃ p, step.perform source x i a = .ok p := by
  cases Step.performs h with
  | enter hopen =>
    obtain ⟨u, a', hopen'⟩ := Scopes.childDeclaring_of_ok hopen a x _
    exact ⟨{ inner := u, scopes := a' }, by rw [Step.perform, hopen']; rfl⟩
  | declare hplace hfilled =>
    obtain ⟨u, a', hplace'⟩ := Place.locate_of_ok hplace x i a
    obtain ⟨a'', hfilled'⟩ := Scopes.declareNodes_of_ok hfilled a' u
    refine ⟨{ inner := i, scopes := a'' }, ?_⟩
    rw [Step.perform, hplace']
    show (a'.declareNodes source u [_] >>= _) = _
    rw [hfilled']
    rfl
  | visit hplace =>
    obtain ⟨u, a', hplace'⟩ := Place.locate_of_ok hplace x i a
    exact ⟨{ action := .visit _ u, inner := i, scopes := a' }, by rw [Step.perform, hplace']; rfl⟩
  | caseConstant | localClass | anonymousClass => exact ⟨_, rfl⟩

/-! ## where the inspection stands -/

/-- declarations stand in block positions only -/
def Table.IsOrderly (t : Table) : Prop :=
  ∀ n ∈ t.source.root.preorder, n.isOrderly = true
deriving Decidable

/-- no two classes are declared under one key -/
def Table.IndexesOnce (t : Table) : Prop :=
  (t.declared.map (·.1)).Nodup
deriving Decidable

namespace Subject

/-- whose code the inspection starts in -/
def own (s : Subject) : CodeOwner :=
  ⟨s.method.owner, some s.method⟩

/-- the code is that of the method, and the pass and the inspection see the same in it -/
structure Tracks (s : Subject) (owner : CodeOwner) : Prop where
  orderly : s.table.IsOrderly
  once : s.table.IndexesOnce
  own : owner = s.own

/-- the code is that of the method, or of a class in it -/
def Within (s : Subject) (owner : CodeOwner) : Prop :=
  owner = s.own ∨ s.table.declaredWithin owner.cls s.method = true

/-- a depth that is enough for the classes declared in a class -/
def reserve (s : Subject) (c : ClassId) : Nat :=
  (s.table.classes.size - (c + 1)) * (s.table.source.root.height + 2)

/-- the inspection is about to go over `n`, which the pass has taken from `t₁` to `t₂` -/
structure CodeAt (s : Subject) (b : Nat) (n : Node) (sc : ScopeId) (st : WalkState)
    (owner : CodeOwner) (sc' : ScopeId) (t₁ t₂ : Table) : Prop where
  ran : s.table.Ran (.code owner n sc') t₁ t₂
  mem : n ∈ s.table.source.root.preorder
  depth : s.reserve owner.cls + n.height < b
  grows : s.table.scopes.Grows st.scopes
  stands : st.scopes.Stands sc (s.table.outersOf (some owner.cls))
  within : s.table.IndexesOnce → s.Within owner
  twin : s.Tracks owner → Scopes.Twin st.scopes t₁.scopes sc sc'

structure BodyAt (s : Subject) (b : Nat) (c : ClassId) (st : WalkState) : Prop where
  lt : c < s.table.classes.size
  depth : s.reserve c + (s.table.source.root.height + 2) ≤ b
  grows : s.table.scopes.Grows st.scopes
  within : s.table.IndexesOnce → s.table.declaredWithin c s.method = true

structure Works (s : Subject) (b : Nat) (go : Onward) : Prop where
  code : ∀ {n sc st owner sc' t₁ t₂}, s.CodeAt b n sc st owner sc' t₁ t₂ →
    Ends s.table.Excluded (go (.code n sc)) st fun _ st' =>
      Scopes.Spares (· = sc) st.scopes st'.scopes ∧
        (s.Tracks owner → (n.mayDeclare = true → n.named = true) →
          Scopes.Twin st'.scopes t₂.scopes sc sc')
  unnamed : ∀ {n sc st}, n.named = false → 0 < b →
    Ends s.table.Excluded (go (.code n sc)) st fun _ st' => st' = st
  body : ∀ {c st}, s.BodyAt b c st →
    Ends s.table.Excluded (go (.body c)) st fun _ st' =>
      Scopes.Spares (fun _ => False) st.scopes st'.scopes

variable {s : Subject} {k : ClassId}

theorem reserve_lt {c : ClassId} (hlt : c < k) (hk : k < s.table.classes.size) :
    s.reserve k + (s.table.source.root.height + 2) ≤ s.reserve c := by
  rw [reserve, reserve, ← Nat.succ_mul]
  refine Nat.mul_le_mul_right _ (Nat.succ_le_of_lt ?_)
  exact Nat.sub_lt_sub_left (Nat.lt_of_le_of_lt hlt hk) (Nat.succ_lt_succ hlt)

/-! ## classes that are met -/

theorem Within.entered {owner : CodeOwner} {node : Node} (h : s.Within owner)
    (hentered : s.table.Entered owner node k) : s.table.declaredWithin k s.method = true := by
  rw [declaredWithin, List.any_cons, hentered.enclosing, hentered.outers, Bool.or_eq_true]
  rcases h with rfl | hwithin
  · exact .inl (beq_self_eq_true _)
  · exact .inr hwithin

/-- the class is found, and it is the one that was entered if no other goes by its key -/
theorem bodyAt_of_entered {source : SourceUnit} (built : ofSource source = .ok s.table) {owner : CodeOwner}
    {node : Node} {b : Nat} {st : WalkState} (hentered : s.table.Entered owner node k)
    (hdepth : s.reserve owner.cls ≤ b) (hgrows : s.table.scopes.Grows st.scopes)
    (hwithin : s.table.IndexesOnce → s.Within owner) :
    ∃ c, s.table.classFor node = some c ∧ s.BodyAt b c st ∧ (s.table.IndexesOnce → c = k) := by
  obtain ⟨c, hfound, hle, hlt⟩ := (numbered_of_ofSource built).classFor hentered.declared
  have hsame : s.table.IndexesOnce → c = k := fun honce =>
    Option.some.inj (hfound.symm.trans (classFor_of_nodup honce hentered.declared))
  refine ⟨c, hfound, ⟨hlt, ?_, hgrows, fun honce => ?_⟩, hsame⟩
  · exact Nat.le_trans (reserve_lt (Nat.lt_of_lt_of_le hentered.later hle) hlt) hdepth
  · rw [hsame honce]
    exact (hwithin honce).entered hentered

/-! ## steps of a plan -/

section
variable {b : Nat} {go : Onward}

/-- the name of a class comes into both stores -/
theorem ends_declareLocal {bad : Halt → Prop} (c : ClassId) (x : ScopeId) (st : WalkState) :
    Ends bad (s.declareLocal c x) st fun _ st' => Scopes.Spares (· = x) st.scopes st'.scopes ∧
      ∀ (t : Table) (y : ScopeId), (t.decl c).name = (s.table.decl c).name →
        Scopes.Twin st.scopes t.scopes x y → Scopes.Twin st'.scopes (t.nameLocal y c).scopes x y := by
  have hproper : ∀ t : Table, (t.decl c).name = (s.table.decl c).name →
      (t.decl c).properName = (s.table.decl c).properName := fun t hname => by
    rw [ClassDecl.properName, hname, ClassDecl.properName]
  unfold declareLocal
  split
  · rename_i hnone
    refine ends_pure ⟨.refl _ _, fun t y hname htwin => ?_⟩
    rw [nameLocal, hproper t hname, hnone]
    exact htwin
  · rename_i name hsome
    refine ends_modify ⟨st.scopes.spares_declareType x name c, fun t y hname htwin => ?_⟩
    rw [nameLocal, hproper t hname, hsome]
    exact htwin.declareType name c

theorem Works.visitLocalClass {source : SourceUnit} (built : ofSource source = .ok s.table)
    (hgo : s.Works b go) {owner : CodeOwner} {declaration : Node} {x y j : ScopeId} {rest : List Step}
    {st : WalkState} {t₁ t₂ : Table}
    (hran : s.table.Ran (.steps owner y j (.localClass declaration :: rest)) t₁ t₂)
    (hdepth : s.reserve owner.cls ≤ b) (hgrows : s.table.scopes.Grows st.scopes)
    (hwithin : s.table.IndexesOnce → s.Within owner)
    (htwin : s.Tracks owner → Scopes.Twin st.scopes t₁.scopes x y) :
    ∃ t', s.table.Ran (.steps owner y j rest) t' t₂ ∧ Scopes.Spares (· = y) t₁.scopes t'.scopes ∧
      Ends s.table.Excluded (s.visitLocalClass go declaration x) st fun _ st' =>
        Scopes.Spares (· = x) st.scopes st'.scopes ∧
          (s.Tracks owner → Scopes.Twin st'.scopes t'.scopes x y) := by
  obtain ⟨t', hcls, _, hothers⟩ := hran.localClass
  have hcopied := t₁.scopes.spares_snapshot y
  have hspares := hcopied.andThen hcls.spans.spares
  have hnamed := (spans_nameLocal hcls.spans.closed y t₁.classes.size).spares
  refine ⟨_, hothers, (hspares.mono fun _ _ _ hid => hid.elim).andThen hnamed, ?_⟩
  obtain ⟨c, hfound, hat, hsame⟩ := bodyAt_of_entered built hcls.entered hdepth hgrows hwithin
  unfold Subject.visitLocalClass
  rw [hfound]
  refine Ends.bind ((ends_declareLocal c x st).mono fun _ st₁ hnamed₁ => ?_)
  obtain ⟨hspares₁, htwin₁⟩ := hnamed₁
  have hat₁ : s.BodyAt b c st₁ := ⟨hat.lt, hat.depth, hgrows.trans hspares₁.grows, hat.within⟩
  refine (hgo.body hat₁).mono fun _ st₂ hspares₂ => ⟨hspares₁.trans hspares₂ fun _ _ hid => hid.elim, ?_⟩
  intro htracks
  have hbefore := (htwin htracks).spared (.refl (fun _ => False) _) hspares (fun _ _ => id) fun _ _ => id
  have hname : (t'.decl c).name = (s.table.decl c).name := by
    have hlt : c < t'.classes.size := by
      cases hcls.indexes with
      | cls registers members =>
        rw [hsame htracks.once]
        exact Nat.lt_of_lt_of_le (registers.size ▸ Nat.lt_succ_self _) members.stays.size
    exact (congrArg (·.1.1) (hcls.rest.stays.settled c hlt)).symm
  have hafter := htwin₁ t' y hname hbefore
  rw [hsame htracks.once] at hafter
  exact hafter.spared hspares₂ (.refl (fun _ => False) _) (fun _ _ => id) fun _ _ => id

theorem Works.visitAnonymousClass {source : SourceUnit} (built : ofSource source = .ok s.table)
    (hgo : s.Works b go) {owner : CodeOwner} {creation : Node} {st : WalkState}
    (hentered : s.table.Entered owner creation k) (hdepth : s.reserve owner.cls ≤ b)
    (hgrows : s.table.scopes.Grows st.scopes) (hwithin : s.table.IndexesOnce → s.Within owner) :
    Ends s.table.Excluded (s.visitAnonymousClass go creation) st fun _ st' =>
      Scopes.Spares (fun _ => False) st.scopes st'.scopes := by
  obtain ⟨c, hfound, hat, _⟩ := bodyAt_of_entered built hentered hdepth hgrows hwithin
  unfold Subject.visitAnonymousClass
  rw [hfound]
  exact hgo.body hat

/-- the inspection is about to carry out some steps of the plan of `n`, which the pass has taken from `t₁` to `t₂` -/
structure PlanAt (s : Subject) (b : Nat) (n : Node) (x i : ScopeId) (steps : List Step) (st : WalkState)
    (owner : CodeOwner) (y j : ScopeId) (t₁ t₂ : Table) : Prop where
  ran : s.table.Ran (.steps owner y j steps) t₁ t₂
  mem : n ∈ s.table.source.root.preorder
  parts : ∀ step ∈ steps, step.Of n
  proper : s.Tracks owner → ∀ step ∈ steps, step.Proper
  depth : s.reserve owner.cls + n.height ≤ b
  grows : s.table.scopes.Grows st.scopes
  here : st.scopes.Stands x (s.table.outersOf (some owner.cls))
  inner : st.scopes.Stands i (s.table.outersOf (some owner.cls))
  within : s.table.IndexesOnce → s.Within owner
  twins : s.Tracks owner → Scopes.Twins st.scopes t₁.scopes x i y j

section
variable {n : Node} {x i y j : ScopeId} {step : Step} {rest : List Step} {st : WalkState}
  {owner : CodeOwner} {t₁ t₂ : Table} {steps : List Step}

theorem PlanAt.source (h : s.PlanAt b n x i steps st owner y j t₁ t₂) : t₁.source = s.table.source :=
  h.ran.stays.source.symm

theorem PlanAt.reserve_le (h : s.PlanAt b n x i steps st owner y j t₁ t₂) : s.reserve owner.cls ≤ b :=
  Nat.le_trans (Nat.le_add_right _ _) h.depth

/-- the rest of a plan, after a step that has been carried out on both sides -/
theorem PlanAt.next {free : ScopeId → Prop} {i' j' : ScopeId} {st' : WalkState} {t' : Table}
    (h : s.PlanAt b n x i (step :: rest) st owner y j t₁ t₂)
    (hran : s.table.Ran (.steps owner y j' rest) t' t₂) (hspares : Scopes.Spares free st.scopes st'.scopes)
    (hinner : st'.scopes.Stands i' (s.table.outersOf (some owner.cls)))
    (htwins : s.Tracks owner → Scopes.Twins st'.scopes t'.scopes x i' y j') :
    s.PlanAt b n x i' rest st' owner y j' t' t₂ where
  ran := hran
  mem := h.mem
  parts step' hstep' := h.parts step' (List.mem_cons_of_mem _ hstep')
  proper htracks step' hstep' := h.proper htracks step' (List.mem_cons_of_mem _ hstep')
  depth := h.depth
  grows := h.grows.trans hspares.grows
  here := h.here.grows hspares.grows
  inner := hinner
  within := h.within
  twins := htwins

section
variable (hfirst : s.exhaustive = false)
include hfirst

/-- a step that leaves nothing, or a constant to look at -/
theorem PlanAt.visitQuiet {p : Progress} (h : s.PlanAt b n x i (step :: rest) st owner y j t₁ t₂)
    (hquiet : step.isQuiet = true) (hp : step.perform s.table.source x i st.scopes = .ok p) :
    Ends s.table.Excluded (s.visitAction go p.action) { st with scopes := p.scopes } fun _ st' =>
      st'.scopes = p.scopes := by
  cases Step.performs hp with
  | enter | declare => exact ends_pure rfl
  | @caseConstant name =>
    have hbelow : name.IsBelow n := h.parts _ List.mem_cons_self
    exact harmless_visitCaseConstant s hfirst (hbelow.mem_preorder h.mem) x _
  | visit | localClass | anonymousClass => cases hquiet

/-- both sides carry out a step that goes on to no code -/
theorem PlanAt.quiet (go : Onward) (h : s.PlanAt b n x i (step :: rest) st owner y j t₁ t₂)
    (hquiet : step.isQuiet = true) :
    ∃ (p : Progress) (j' : ScopeId) (t' : Table),
      step.perform s.table.source x i st.scopes = .ok p ∧
      Ends s.table.Excluded (s.visitAction go p.action) { st with scopes := p.scopes } fun _ st' =>
        st'.scopes = p.scopes ∧ s.PlanAt b n x p.inner rest st' owner y j' t' t₂ := by
  obtain ⟨q, hq, hothers⟩ := h.ran.quiet hquiet
  rw [h.source] at hq
  obtain ⟨p, hp⟩ := Step.perform_of_ok hq x i st.scopes
  obtain ⟨hopening, _⟩ := Step.opening_perform h.here h.inner hp
  refine ⟨p, q.inner, { t₁ with scopes := q.scopes }, hp,
    (h.visitQuiet hfirst hquiet hp).mono fun _ st' hsame => ⟨hsame, ?_⟩⟩
  refine h.next hothers (hsame ▸ (Scopes.spares_perform hp).2) (hsame ▸ hopening.stands) fun htracks => ?_
  rw [hsame]
  refine (h.twins htracks).quiet hp hq fun part place heq => ?_
  rw [heq] at hquiet
  cases hquiet

end

/-- both sides go on to a part -/
theorem PlanAt.visit {part : Node} {place : Place} (hgo : s.Works b go)
    (h : s.PlanAt b n x i (.visit part place :: rest) st owner y j t₁ t₂) :
    ∃ (u : ScopeId) (a : Scopes) (t' : Table),
      place.locate s.table.source x i st.scopes = .ok (u, a) ∧
      Ends s.table.Excluded (go (.code part u)) { st with scopes := a } fun _ st' =>
        Scopes.Spares (· = u) a st'.scopes ∧ s.PlanAt b n x i rest st' owner y j t' t₂ := by
  obtain ⟨v, c, t', hlocated', hpart, hothers⟩ := h.ran.visit
  rw [h.source] at hlocated'
  obtain ⟨u, a, hlocated⟩ := Place.locate_of_ok hlocated' x i st.scopes
  have hopening := Place.opening_locate h.here h.inner hlocated
  have hbelow : part.IsBelow n := h.parts _ List.mem_cons_self
  have hat : s.CodeAt b part u { st with scopes := a } owner v { t₁ with scopes := c } t' := by
    refine ⟨hpart, hbelow.mem_preorder h.mem, ?_, h.grows.trans hopening.grows, hopening.stands,
      h.within, fun htracks => ((h.twins htracks).locate hlocated hlocated').2.1⟩
    exact Nat.lt_of_lt_of_le (Nat.add_lt_add_left hbelow.height_lt _) h.depth
  refine ⟨u, a, t', hlocated, (hgo.code hat).mono fun _ st' hdone => ⟨hdone.1, ?_⟩⟩
  obtain ⟨hspares, htwin⟩ := hdone
  have hgrows := hopening.grows.trans hspares.grows
  have hwhole : Scopes.Spares (fun _ => True) st.scopes st'.scopes :=
    ⟨hgrows, fun _ _ hno => absurd trivial hno⟩
  refine h.next hothers hwhole (h.inner.grows hgrows) fun htracks => ?_
  obtain ⟨htwins, _, hsame⟩ := (h.twins htracks).locate hlocated hlocated'
  have hspares' : Scopes.Spares (· = v) c t'.scopes := hpart.spans.spares
  by_cases hnamed : part.mayDeclare = true → part.named = true
  · exact htwins.after hsame hspares hspares' (htwin htracks hnamed)
  · -- what an unnamed part declares stays in a level that no other code sees
    have hfresh : place.isFresh = true := by
      have hproper : part.mayDeclare = true → part.named = true ∨ place.isFresh = true :=
        h.proper htracks _ List.mem_cons_self
      obtain ⟨hdeclares, hno⟩ := Classical.not_imp.mp hnamed
      exact (hproper hdeclares).resolve_left hno
    cases place with
    | here | inner => cases hfresh
    | fresh below label names =>
      obtain ⟨hu, hv⟩ := (h.twins htracks).locate_fresh hlocated hlocated'
      exact htwins.aside hspares hspares' (fun id hid heq => hu (heq ▸ hid))
        fun id hid heq => hv (heq ▸ hid)

theorem Works.visitSteps {source : SourceUnit} (built : ofSource source = .ok s.table)
    (hfirst : s.exhaustive = false) (hgo : s.Works b go) (h : s.PlanAt b n x i steps st owner y j t₁ t₂) :
    Ends s.table.Excluded (s.visitSteps go x i steps) st fun _ st' =>
      Scopes.Spares (fun id => id = x ∨ id = i) st.scopes st'.scopes ∧
        (s.Tracks owner → Scopes.Twin st'.scopes t₂.scopes x y) := by
  induction steps generalizing i j st t₁ with
  | nil =>
    cases h.ran.indexes
    exact ends_pure ⟨.refl _ _, fun htracks => (h.twins htracks).here⟩
  | cons step rest ih =>
    cases step with
    | enter | declare | caseConstant =>
      obtain ⟨p, j', t', hp, hquiet⟩ := h.quiet hfirst go rfl
      obtain ⟨hinner, hspares⟩ := Scopes.spares_perform hp
      refine Ends.of_eq (visitSteps_cons hp go rest) (Ends.bind (hquiet.mono fun _ st₁ hdone => ?_))
      obtain ⟨hsame, hnext⟩ := hdone
      refine (ih hnext).mono fun _ st₂ hrest => ⟨(hsame ▸ hspares).trans hrest.1 ?_, hrest.2⟩
      rintro id hid (hid' | hid')
      · exact .inl hid'
      · rcases hinner with heq | hnew
        · exact .inr (hid'.trans heq)
        · exact absurd hid (Nat.not_lt.mpr (hid' ▸ hnew))
    | visit part place =>
      obtain ⟨u, a, t', hlocated, hvisit⟩ := h.visit hgo
      obtain ⟨hplace, hspares⟩ := Scopes.spares_locate hlocated
      have hp : (Step.visit part place).perform s.table.source x i st.scopes =
          .ok { action := .visit part u, inner := i, scopes := a } := by
        rw [Step.perform, hlocated]
        rfl
      refine Ends.of_eq (visitSteps_cons hp go rest) (Ends.bind (hvisit.mono fun _ st₁ hdone => ?_))
      obtain ⟨hpart, hnext⟩ := hdone
      refine (ih hnext).mono fun _ st₂ hrest => ⟨?_, hrest.2⟩
      refine ((hspares.mono fun _ _ _ hid => hid.elim).trans hpart ?_).andThen hrest.1
      rintro id hid rfl
      rcases hplace with heq | heq | hnew
      · exact .inl heq
      · exact .inr heq
      · exact absurd hid (Nat.not_lt.mpr hnew)
    | localClass declaration =>
      obtain ⟨t', hothers, hindexed, hclass⟩ := hgo.visitLocalClass (x := x) built h.ran h.reserve_le h.grows
        h.within fun htracks => (h.twins htracks).here
      have hp : (Step.localClass declaration).perform s.table.source x i st.scopes =
          .ok { action := .localClass declaration x, inner := i, scopes := st.scopes } := rfl
      refine Ends.of_eq (visitSteps_cons hp go rest) (Ends.bind (hclass.mono fun _ st₁ hdone => ?_))
      obtain ⟨hspares, htwin⟩ := hdone
      have hnext := h.next hothers hspares (h.inner.grows hspares.grows) fun htracks =>
        (h.twins htracks).after (.inl ⟨rfl, rfl⟩) hspares hindexed (htwin htracks)
      refine (ih hnext).mono fun _ st₂ hrest => ⟨?_, hrest.2⟩
      exact (hspares.mono fun _ _ _ hid => .inl hid).andThen hrest.1
    | anonymousClass creation body =>
      obtain ⟨t', hcls, _, hothers⟩ := h.ran.anonymousClass
      have hclass := hgo.visitAnonymousClass built hcls.entered h.reserve_le h.grows h.within
      have hindexed := (t₁.scopes.spares_snapshot y).andThen hcls.spans.spares
      have hp : (Step.anonymousClass creation body).perform s.table.source x i st.scopes =
          .ok { action := .anonymousClass creation body x, inner := i, scopes := st.scopes } := rfl
      refine Ends.of_eq (visitSteps_cons hp go rest) (Ends.bind (hclass.mono fun _ st₁ hspares => ?_))
      have hnext := h.next hothers hspares (h.inner.grows hspares.grows) fun htracks =>
        (h.twins htracks).grown hspares hindexed
      refine (ih hnext).mono fun _ st₂ hrest => ⟨?_, hrest.2⟩
      exact (hspares.mono fun _ _ _ hid => hid.elim).andThen hrest.1

end

end

/-! ## constructs without statements -/

section
variable {b : Nat} {go : Onward} {n : Node} {sc sc' : ScopeId} {owner : CodeOwner} {st₀ : WalkState}
  {t₁ t₂ : Table}

/-- since `st₀` only the level `sc` may have been filled, and in step with the pass it has not -/
structure Stable (s : Subject) (owner : CodeOwner) (sc sc' : ScopeId) (st₀ : WalkState) (t₁ : Table)
    (st : WalkState) : Prop where
  spares : Scopes.Spares (· = sc) st₀.scopes st.scopes
  twin : s.Tracks owner → Scopes.Twin st.scopes t₁.scopes sc sc'

theorem Stable.congr (st st' : WalkState) (hsame : st'.scopes = st.scopes)
    (h : s.Stable owner sc sc' st₀ t₁ st) : s.Stable owner sc sc' st₀ t₁ st' :=
  ⟨hsame ▸ h.spares, hsame ▸ h.twin⟩

theorem CodeAt.calm (h : s.CodeAt b n sc st₀ owner sc' t₁ t₂) (horderly : s.table.IsOrderly)
    (huse : n.construct.isUse = true) (hknown : n.construct ≠ .unknown) : n.Calm where
  orderly k hk := horderly k (Node.mem_preorder_trans hk h.mem)
  holds := Node.holdsMembers_of_construct hknown
  quiet := by
    unfold Node.declaresForward
    cases hconstruct : n.construct <;> simp_all [Construct.isUse]

/-- a part of such a construct stands in its level, and leaves it as it is -/
theorem CodeAt.part (hgo : s.Works b go) (h : s.CodeAt (b + 1) n sc st₀ owner sc' t₁ t₂)
    (huse : n.construct.isUse = true) (hknown : n.construct ≠ .unknown) {part : Node}
    (hpart : .visit part .here ∈ n.plan) :
    Maintains s.table (s.Stable owner sc sc' st₀ t₁) (go (.code part sc)) := by
  intro st hst
  have hbelow : part.IsBelow n := n.of_plan _ hpart
  have hdepth : s.reserve owner.cls + part.height < b :=
    Nat.lt_of_lt_of_le (Nat.add_lt_add_left hbelow.height_lt _) (Nat.lt_succ_iff.mp h.depth)
  have hgrows := hst.spares.grows
  by_cases htracks : s.Tracks owner
  · have hcalm := h.calm htracks.orderly huse hknown
    have hlevel := hcalm.level_plan huse
    have hquiet : part.Calm := (hlevel _ hpart).2
    obtain ⟨a, d, hran, hspans⟩ := h.ran.code.calm_part hlevel hpart
    have htwin := hst.twin htracks
    have hat : s.CodeAt b part sc st owner sc' a d :=
      ⟨hran, hbelow.mem_preorder h.mem, hdepth, h.grows.trans hgrows, h.stands.grows hgrows, h.within,
        fun _ => htwin.spared (.refl (fun _ => False) _) hspans.spares (fun _ _ => id) fun _ _ => id⟩
    refine (hgo.code hat).mono fun _ st' hdone => ⟨hst.spares.andThen hdone.1, fun _ => ?_⟩
    have hafter := hdone.2 htracks fun hdeclares =>
      absurd (hquiet.mayDeclare.symm.trans hdeclares) Bool.false_ne_true
    exact hafter.earlier htwin.right (hspans.spares.andThen (hran.calm hquiet).spares)
  · obtain ⟨v, a, d, hran⟩ := h.ran.code.part_of_mem hpart
    have hat : s.CodeAt b part sc st owner v a d :=
      ⟨hran, hbelow.mem_preorder h.mem, hdepth, h.grows.trans hgrows, h.stands.grows hgrows, h.within,
        fun hno => absurd hno htracks⟩
    exact (hgo.code hat).mono fun _ st' hdone =>
      ⟨hst.spares.andThen hdone.1, fun hno => absurd hno htracks⟩

/-- every child, if the construct has no class body -/
theorem CodeAt.child (hgo : s.Works b go) (h : s.CodeAt (b + 1) n sc st₀ owner sc' t₁ t₂)
    (huse : n.construct.isUse = true) (hknown : n.construct ≠ .unknown)
    (hcreation : n.construct ≠ .creation) {part : Node} (hpart : part ∈ n.children) :
    Maintains s.table (s.Stable owner sc sc' st₀ t₁) (go (.code part sc)) := by
  cases hnamed : part.named with
  | true =>
    refine h.part hgo huse hknown ?_
    rw [Node.plan_of_isUse huse hcreation]
    exact List.mem_map.mpr ⟨part, List.mem_filter.mpr ⟨hpart, hnamed⟩, rfl⟩
  | false =>
    intro st hst
    have hheight := (Node.isBelow_of_mem hpart).height_lt
    have hpositive : 0 < b :=
      Nat.lt_of_lt_of_le (Nat.lt_of_le_of_lt (Nat.zero_le _) (Nat.add_lt_add_left hheight _))
        (Nat.lt_succ_iff.mp h.depth)
    exact (hgo.unnamed hnamed hpositive).mono fun _ st' heq => heq ▸ hst

/-- such a construct has been gone over -/
theorem CodeAt.use (h : s.CodeAt b n sc st₀ owner sc' t₁ t₂) (huse : n.construct.isUse = true)
    (hknown : n.construct ≠ .unknown) {x : Walk Unit}
    (hx : Maintains s.table (s.Stable owner sc sc' st₀ t₁) x) :
    Ends s.table.Excluded x st₀ fun _ st' => Scopes.Spares (· = sc) st₀.scopes st'.scopes ∧
      (s.Tracks owner → Scopes.Twin st'.scopes t₂.scopes sc sc') := by
  refine (hx st₀ ⟨.refl _ _, h.twin⟩).mono fun _ st' hst => ⟨hst.spares, fun htracks => ?_⟩
  have hspans := h.ran.calm (h.calm htracks.orderly huse hknown)
  exact (hst.twin htracks).spared (.refl (fun _ => False) _) hspans.spares (fun _ _ => id) fun _ _ => id

/-- a class body in a creation -/
theorem CodeAt.anonymous {source : SourceUnit} (built : ofSource source = .ok s.table) (hgo : s.Works b go)
    (h : s.CodeAt (b + 1) n sc st₀ owner sc' t₁ t₂) {body : Node} (hbody : .anonymousClass n body ∈ n.plan) :
    Maintains s.table (s.Stable owner sc sc' st₀ t₁) (s.visitAnonymousClass go n) := by
  intro st hst
  obtain ⟨_, _, _, hcls⟩ := h.ran.code.class_of_mem hbody
  have hdepth : s.reserve owner.cls ≤ b :=
    Nat.le_trans (Nat.le_add_right _ _) (Nat.lt_succ_iff.mp h.depth)
  refine (hgo.visitAnonymousClass built hcls.entered hdepth (h.grows.trans hst.spares.grows)
    h.within).mono fun _ st' hspares => ⟨hst.spares.trans hspares fun _ _ hid => hid.elim, fun htracks => ?_⟩
  exact (hst.twin htracks).spared hspares (.refl (fun _ => False) _) (fun _ _ => id) fun _ _ => id

section
variable {source : SourceUnit} (built : ofSource source = .ok s.table) (hfirst : s.exhaustive = false)
include built hfirst

theorem CodeAt.creation (hgo : s.Works b go) (h : s.CodeAt (b + 1) n sc st₀ owner sc' t₁ t₂)
    (hcreation : n.construct = .creation) :
    Maintains s.table (s.Stable owner sc sc' st₀ t₁) (s.visitCreation go n sc) := by
  have huse : n.construct.isUse = true := by rw [hcreation]; rfl
  have hknown : n.construct ≠ .unknown := by rw [hcreation]; nofun
  have hplan : n.plan = n.creationSteps n.namedChildren := by rw [Node.plan, hcreation]
  have hstep : ∀ c ∈ n.namedChildren, (!isTypeKind c.kind) = true →
      (if c.kind == "class_body" then Step.anonymousClass n c else .visit c .here) ∈ n.plan := by
    intro c hc htype
    rw [hplan]
    exact List.mem_map.mpr ⟨c, List.mem_filter.mpr ⟨hc, htype⟩, rfl⟩
  refine Maintains.bind (maintains_visitOuterInstance s hfirst Stable.congr h.mem fun q hq hqualifier => ?_)
    fun _ => maintains_visitSteps ?_ ?_ ?_
  · unfold isQualifier at hqualifier
    rw [Bool.and_eq_true, Bool.and_eq_true, bne_iff_ne, bne_iff_ne] at hqualifier
    have hvisit := hstep q hq hqualifier.1.1
    rw [if_neg fun hkind => hqualifier.2 (beq_iff_eq.mp hkind)] at hvisit
    exact h.part hgo huse hknown hvisit
  · intro part place hmem
    obtain ⟨c, hc, heq⟩ := List.mem_map.mp hmem
    obtain ⟨hchild, htype⟩ := List.mem_filter.mp hc
    have hvisit := hstep c (List.mem_of_mem_eraseP hchild) htype
    rw [heq] at hvisit
    split at heq <;> cases heq
    exact ⟨rfl, h.part hgo huse hknown hvisit⟩
  · intro creation body hmem
    obtain ⟨c, hc, heq⟩ := List.mem_map.mp hmem
    obtain ⟨hchild, htype⟩ := List.mem_filter.mp hc
    have hclass := hstep c (List.mem_of_mem_eraseP hchild) htype
    rw [heq] at hclass
    split at heq <;> cases heq
    exact h.anonymous built hgo hclass
  · intro step hmem
    obtain ⟨c, _, rfl⟩ := List.mem_map.mp hmem
    split
    · exact .inr ⟨n, c, rfl⟩
    · exact .inl ⟨c, .here, rfl⟩

/-- some code, by its construct -/
theorem CodeAt.visitCode (hgo : s.Works b go) (h : s.CodeAt (b + 1) n sc st₀ owner sc' t₁ t₂) :
    Ends s.table.Excluded (s.visitCode go n sc) st₀ fun _ st' =>
      Scopes.Spares (· = sc) st₀.scopes st'.scopes ∧
        (s.Tracks owner → (n.mayDeclare = true → n.named = true) →
          Scopes.Twin st'.scopes t₂.scopes sc sc') := by
  have hpassed : ∀ x : Walk Unit, n.construct.isUse = true ∧ n.construct ≠ .unknown →
      Maintains s.table (s.Stable owner sc sc' st₀ t₁) x →
      Ends s.table.Excluded x st₀ fun _ st' => Scopes.Spares (· = sc) st₀.scopes st'.scopes ∧
        (s.Tracks owner → (n.mayDeclare = true → n.named = true) →
          Scopes.Twin st'.scopes t₂.scopes sc sc') :=
    fun x huse hx => (h.use huse.1 huse.2 hx).mono fun _ _ hdone => ⟨hdone.1, fun htracks _ => hdone.2 htracks⟩
  have hchild : ∀ (huse : n.construct.isUse = true ∧ n.construct ≠ .unknown ∧ n.construct ≠ .creation),
      ∀ part ∈ n.children, Maintains s.table (s.Stable owner sc sc' st₀ t₁) (go (.code part sc)) :=
    fun huse part hpart => h.child hgo huse.1 huse.2.1 huse.2.2 hpart
  unfold Subject.visitCode
  split
  · rw [reject_eq_note hfirst]
    exact ends_note s hfirst rfl n st₀ _
  split
  · rename_i hunnamed
    refine ends_pure ⟨.refl _ _, fun htracks hdeclares => ?_⟩
    have hquiet : n.mayDeclare = false := Bool.eq_false_iff.mpr fun hno => by
      rw [hdeclares hno] at hunnamed
      cases hunnamed
    obtain ⟨hforward, hholds⟩ := Bool.or_eq_false_iff.mp hquiet
    have hcalm : n.Calm :=
      ⟨fun k hk => htracks.orderly k (Node.mem_preorder_trans hk h.mem), hholds, hforward⟩
    exact (h.twin htracks).spared (.refl (fun _ => False) _) (h.ran.calm hcalm).spares (fun _ _ => id)
      fun _ _ => id
  split
  · rename_i hconstruct
    exact hpassed _ (by rw [hconstruct]; exact ⟨rfl, nofun⟩) (maintains_pure ())
  · rename_i hconstruct
    exact hpassed _ (by rw [hconstruct]; exact ⟨rfl, nofun⟩)
      ((harmless_visitName s hfirst h.mem sc).maintains Stable.congr)
  · rename_i hconstruct
    exact hpassed _ (by rw [hconstruct]; exact ⟨rfl, nofun⟩)
      ((harmless_visitReceiver s hfirst n sc).maintains Stable.congr)
  · rename_i hconstruct
    refine hpassed _ (by rw [hconstruct]; exact ⟨rfl, nofun⟩)
      (maintains_visitFieldAccess s hfirst Stable.congr h.mem fun object hobject _ => ?_)
    exact hchild (by rw [hconstruct]; exact ⟨rfl, nofun, nofun⟩) object (Node.mem_of_child? hobject)
  · rename_i hconstruct
    exact hpassed _ (by rw [hconstruct]; exact ⟨rfl, nofun⟩) (maintains_visitInvocation s hfirst
      Stable.congr h.mem (hchild (by rw [hconstruct]; exact ⟨rfl, nofun, nofun⟩)))
  · rename_i hconstruct
    exact hpassed _ (by rw [hconstruct]; exact ⟨rfl, nofun⟩) (maintains_visitMethodReference s hfirst
      Stable.congr h.mem (hchild (by rw [hconstruct]; exact ⟨rfl, nofun, nofun⟩)))
  · rename_i hconstruct
    refine hpassed _ (by rw [hconstruct]; exact ⟨rfl, nofun⟩) (maintains_forM fun part hpart => ?_)
    exact hchild (by rw [hconstruct]; exact ⟨rfl, nofun, nofun⟩) part
      (List.mem_filter.mp (List.mem_filter.mp hpart).1).1
  · rename_i hconstruct
    exact hpassed _ (by rw [hconstruct]; exact ⟨rfl, nofun⟩) (h.creation built hfirst hgo hconstruct)
  · rw [reject_eq_note hfirst]
    exact ends_note s hfirst rfl n st₀ _
  · have hknown : n.construct ≠ .unknown := fun hno => by simp_all
    have hplan : s.PlanAt b n sc sc n.plan st₀ owner sc' sc' t₁ t₂ := by
      refine ⟨h.ran.code, h.mem, n.of_plan, fun htracks => ?_, Nat.lt_succ_iff.mp h.depth, h.grows,
        h.stands, h.stands, h.within, fun htracks => (h.twin htracks).twins⟩
      exact Node.proper_plan (htracks.orderly n h.mem) (Node.holdsMembers_of_construct hknown)
    refine (hgo.visitSteps built hfirst hplan).mono fun _ st' hdone => ⟨?_, fun htracks _ => hdone.2 htracks⟩
    exact hdone.1.mono fun _ _ _ hid => hid.elim id id

end

end

end Subject

end StaticPromotion
