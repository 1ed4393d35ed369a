import Mathlib.Data.List.Forall2
import StaticPromotion.Access
import StaticPromotion.Proofs.Runs

/-!
# Walks in lockstep

Two walks over the same code do the same as long as lookup shows them the same. The walk touches its scopes in few ways: it
opens a level, declares a name or a type in one, and looks names up. So a relation between two stores that survives these
survives the whole walk, and that is proved here once for all such relations.

* `Step.Performs`             what carrying out a step comes to;
* `Admission t free enters`   regions that may be walked if something may be declared in the free scopes only;
* `Lockstep t`            such a relation, with the scope of the second walk for each scope of the first. `free` are the
                          scopes in which something may be declared, and `escape` are the stops at which the second walk may
                          part from the first;
* `Lockstep.Walks R x y`  from related states, `x` and `y` give related values and states, or the same stop, or `y` escapes;
* `Lockstep.onwards_walkRegion`, `Lockstep.runs_walkMethod`    every walk of a region, and every inspection of a method, is
                          in lockstep with itself.

A relation that only says something about one store gives an invariant of walks in this way.
-/

namespace StaticPromotion

variable {P : Node → Prop} {free : ScopeId → Prop} {here inner : ScopeId} {member : Node}

/-! ## what lookup sees -/

/-- what lookup sees of a level -/
def Frame.view (f : Frame) : Option ClassId × List String × Registry ClassId :=
  (f.cls, f.locals, f.types)

theorem Frame.view_eq {f g : Frame} (h : f.view = g.view) :
    f.cls = g.cls ∧ f.locals = g.locals ∧ f.types = g.types := by
  simpa [Frame.view] using h

namespace Table

variable (t : Table)

theorem typeAtLevel_of_view {f g : Frame} (h : f.view = g.view) (name : String) :
    t.typeAtLevel name f = t.typeAtLevel name g := by
  obtain ⟨hcls, _, htypes⟩ := Frame.view_eq h
  rw [typeAtLevel, typeAtLevel, hcls, htypes]

theorem alike_of_views {as bs : List Frame} (h : as.map Frame.view = bs.map Frame.view) :
    List.Forall₂ (fun f g => f.view = g.view) as bs := by
  rw [← List.forall₂_eq_eq_eq, List.forall₂_map_left_iff, List.forall₂_map_right_iff] at h
  exact h

section
variable {as bs : List Frame} (h : List.Forall₂ (fun f g => f.view = g.view) as bs) (name : String)
include h

theorem findSome?_typeAtLevel_of_view :
    as.findSome? (t.typeAtLevel name) = bs.findSome? (t.typeAtLevel name) := by
  induction h with
  | nil => rfl
  | cons hhead _ ih => rw [List.findSome?_cons, List.findSome?_cons, typeAtLevel_of_view t hhead, ih]

theorem nameInLevels_of_view (outside : Option ClassId → Reference) (shadow : Option ClassId) :
    t.nameInLevels name outside shadow as = t.nameInLevels name outside shadow bs := by
  induction h generalizing shadow with
  | nil => rfl
  | cons hhead _ ih =>
    obtain ⟨hcls, hlocals, _⟩ := Frame.view_eq hhead
    simp only [nameInLevels, hcls, hlocals, ih]

theorem methodInLevels_of_view (arguments : Int) (shadow : Option ClassId) :
    t.methodInLevels name arguments shadow as = t.methodInLevels name arguments shadow bs := by
  induction h generalizing shadow with
  | nil => rfl
  | cons hhead _ ih => simp only [methodInLevels, (Frame.view_eq hhead).1, ih]

end

section
variable {a b : Scopes} {sa sb : ScopeId}
  (h : (b.levels sb).map Frame.view = (a.levels sa).map Frame.view)
include h

theorem resolveTypeName_of_view (name : String) :
    t.resolveTypeName b sb name = t.resolveTypeName a sa name := by
  rw [resolveTypeName, resolveTypeName, findSome?_typeAtLevel_of_view t (alike_of_views h)]

theorem resolveTypeText_of_view (text : String) :
    t.resolveTypeText b sb text = t.resolveTypeText a sa text := by
  simp only [resolveTypeText, resolveTypeName_of_view t h]

theorem resolveName_of_view (name : String) : t.resolveName b sb name = t.resolveName a sa name := by
  simp only [resolveName, resolveTypeName_of_view t h, nameInLevels_of_view t (alike_of_views h)]

theorem resolveMethod_of_view (name : String) (arguments : Int) :
    t.resolveMethod b sb name arguments = t.resolveMethod a sa name arguments :=
  methodInLevels_of_view t (alike_of_views h) name arguments none

omit t in
theorem innermostClass_of_view : b.innermostClass sb = a.innermostClass sa := by
  have first : ∀ fs : List Frame, fs.findSome? (·.cls) = (fs.map Frame.view).findSome? (·.1) := by
    intro fs
    rw [List.findSome?_map]
    rfl
  rw [Scopes.innermostClass, Scopes.innermostClass, first, first, h]

end

end Table

/-! ## what a step comes to -/

inductive Step.Performs (source : SourceUnit) (here inner : ScopeId) (s : Scopes) : Step → Progress → Prop
  | enter {label : String} {names : List Node} {sc : ScopeId} {s' : Scopes}
      (opened : s.childDeclaring source here label names = .ok (sc, s')) :
      Performs source here inner s (.enter label names) { inner := sc, scopes := s' }
  | declare {name : Node} {place : Place} {sc : ScopeId} {s₁ s' : Scopes}
      (located : place.locate source here inner s = .ok (sc, s₁)) (filled : s₁.declareNodes source sc [name] = .ok s') :
      Performs source here inner s (.declare name place) { inner, scopes := s' }
  | visit {part : Node} {place : Place} {sc : ScopeId} {s' : Scopes}
      (located : place.locate source here inner s = .ok (sc, s')) :
      Performs source here inner s (.visit part place) { action := .visit part sc, inner, scopes := s' }
  | caseConstant {name : Node} :
      Performs source here inner s (.caseConstant name) { action := .caseConstant name here, inner, scopes := s }
  | localClass {node : Node} :
      Performs source here inner s (.localClass node) { action := .localClass node here, inner, scopes := s }
  | anonymousClass {node body : Node} : Performs source here inner s (.anonymousClass node body)
      { action := .anonymousClass node body here, inner, scopes := s }

theorem Step.performs {source : SourceUnit} {s : Scopes} {step : Step} {p : Progress}
    (h : step.perform source here inner s = .ok p) : Performs source here inner s step p := by
  cases step with
  | enter label names =>
    obtain ⟨_, hopen, hdone⟩ := Run.of_except_bind h
    cases hdone
    exact .enter hopen
  | declare name place =>
    obtain ⟨_, hplace, hdeclare⟩ := Run.of_except_bind h
    obtain ⟨_, hfilled, hdone⟩ := Run.of_except_bind hdeclare
    cases hdone
    exact .declare hplace hfilled
  | visit part place =>
    obtain ⟨_, hplace, hdone⟩ := Run.of_except_bind h
    cases hdone
    exact .visit hplace
  | caseConstant | localClass | anonymousClass =>
    cases h
    constructor

/-! ## scopes in which something may be declared -/

theorem construct_of_block (h : Table.MemberKind.ofKind member.kind = .block) :
    member.construct = .block := by
  unfold Table.MemberKind.ofKind at h
  split at h
  all_goals first | cases h | skip
  · rename_i hkind
    rw [Node.construct, hkind]
    rfl
  · split at h <;> cases h

theorem construct_of_isThisAccess {n : Node} (h : Subject.isThisAccess n = true) : n.construct = .fieldAccess := by
  rw [Subject.isThisAccess, Bool.and_eq_true, beq_iff_eq] at h
  rw [Node.construct, h.1]
  rfl

/-- whether the scope of a place is free -/
def Place.Free (free : ScopeId → Prop) (here inner : ScopeId) : Place → Prop
  | .here => free here
  | .inner => free inner
  | .fresh _ _ _ => True

/-- whether a step declares in free scopes only, and goes on in one or to a part that satisfies `P` -/
def Step.Guarded (P : Node → Prop) (free : ScopeId → Prop) (here inner : ScopeId) : Step → Prop
  | .declare _ place => place.Free free here inner
  | .visit part place => place.Free free here inner ∨ P part
  | .localClass _ => free here
  | .enter _ _ | .caseConstant _ | .anonymousClass _ _ => True

/-- the inner scope after a step: a free one if the step opened it, else the one before -/
def Step.Leaves (free : ScopeId → Prop) (inner inner' : ScopeId) : Step → Prop
  | .enter _ _ => free inner'
  | _ => inner' = inner

/-- of steps one after the other, the inner scope being `inner` at first -/
def Step.AllGuarded (P : Node → Prop) (free : ScopeId → Prop) (here : ScopeId) : ScopeId → List Step → Prop
  | _, [] => True
  | inner, step :: rest => step.Guarded P free here inner ∧
      ∀ inner', step.Leaves free inner inner' → AllGuarded P free here inner' rest

theorem Place.free_of_free (hhere : free here)
    (hinner : free inner) (place : Place) : place.Free free here inner := by
  cases place with
  | here => exact hhere
  | inner => exact hinner
  | fresh => trivial

theorem Step.allGuarded_of_free (hhere : free here)
    (hinner : free inner) (steps : List Step) : Step.AllGuarded P free here inner steps := by
  induction steps generalizing inner with
  | nil => trivial
  | cons step steps ih =>
    refine ⟨?_, fun inner' hleaves => ih ?_⟩
    · cases step with
      | declare _ place => exact place.free_of_free hhere hinner
      | visit _ place => exact .inl (place.free_of_free hhere hinner)
      | localClass => exact hhere
      | enter | caseConstant | anonymousClass => trivial
    · cases step with
      | enter => exact hleaves
      | declare | visit | localClass | caseConstant | anonymousClass =>
        obtain rfl : inner' = inner := hleaves
        exact hinner

theorem Step.allGuarded_visitStatements (hinner : free inner) (statements : List Node) :
    Step.AllGuarded P free here inner (Node.visitStatements statements) := by
  induction statements with
  | nil => trivial
  | cons statement statements ih =>
    refine ⟨?_, fun inner' hleaves => ?_⟩
    · refine .inl ?_
      show Place.Free free here inner (if statement.declaresForward then _ else _)
      split
      · exact hinner
      · trivial
    · obtain rfl : inner' = inner := hleaves
      exact ih

/-! ## regions that may be walked -/

/-- what is left to do with a step may be walked, in a free scope at least -/
def Step.Goes (t : Table) (free : ScopeId → Prop) (enters : Subject.CodeRegion → Prop) : Step → Prop
  | .visit part _ => ∀ sc, free sc → enters (.code part sc)
  | .localClass n | .anonymousClass n _ => ∀ c, t.classFor n = some c → enters (.body c)
  | .enter _ _ | .declare _ _ | .caseConstant _ => True

/-- steps that are carried out in `here` -/
structure Step.Admitted (t : Table) (free : ScopeId → Prop) (enters : Subject.CodeRegion → Prop) (here : ScopeId)
    (steps : List Step) : Prop where
  guarded : Step.AllGuarded (fun part => ∀ sc, enters (.code part sc)) free here here steps
  goes : ∀ step ∈ steps, step.Goes t free enters

structure Table.MemberEnters (t : Table) (free : ScopeId → Prop) (enters : Subject.CodeRegion → Prop) (c : ClassId)
    (member : Node) : Prop where
  declarators : ∀ sc, free sc → Step.Admitted t free enters sc (member.declaratorSteps .here)
  apart : ∀ part ∈ member.children, ∀ sc, free sc → enters (.code part sc)
  block : Table.MemberKind.ofKind member.kind = .block → enters (.code member (t.decl c).scope)
  staticBlock : Table.MemberKind.ofKind member.kind = .staticBlock →
    ∀ part ∈ member.namedChildren, enters (.code part (t.decl c).scope)
  cls : ∀ k, (Table.MemberKind.ofKind member.kind = .constant ∨
    ∃ kind, Table.MemberKind.ofKind member.kind = .nested kind) → t.classFor member = some k → enters (.body k)

/-- the parts are walked where the construct stands -/
def Construct.handsOn : Construct → Bool
  | .fieldAccess | .invocation | .methodReference | .constructorCall | .creation => true
  | _ => false

/-- with a region, all that its walk goes on to may be walked, and only free scopes are filled on the way -/
structure Admission (t : Table) (free : ScopeId → Prop) (enters : Subject.CodeRegion → Prop) : Prop where
  child : ∀ {n c : Node} {sc : ScopeId}, enters (.code n sc) → n.construct.handsOn = true → c ∈ n.children →
    enters (.code c sc)
  apart : ∀ {n c : Node} {sc sc' : ScopeId}, enters (.code n sc) → c ∈ n.children → free sc' → enters (.code c sc')
  plan : ∀ {n : Node} {sc : ScopeId}, enters (.code n sc) → n.construct ≠ .inert → n.construct ≠ .unknown →
    Step.Admitted t free enters sc n.plan
  creation : ∀ {n : Node} {sc : ScopeId}, enters (.code n sc) → n.construct = .creation →
    Step.Admitted t free enters sc (n.creationSteps (n.namedChildren.eraseP Subject.isQualifier))
  member : ∀ {c : ClassId} {body member : Node}, enters (.body c) → (t.decl c).body = some body →
    member ∈ Table.memberNodes body → t.MemberEnters free enters c member

/-- code in a free scope, and code that declares nothing where it stands -/
def Fits (free : ScopeId → Prop) : Subject.CodeRegion → Prop
  | .code part scope => free scope ∨ part.construct = .block ∨ part.construct = .inert
  | .body _ => True

theorem fits_of_free (h : ∀ sc, free sc) (region : Subject.CodeRegion) : Fits free region := by
  cases region with
  | code part scope => exact .inl (h scope)
  | body => trivial

theorem Step.goes_fits (t : Table) (step : Step) : step.Goes t free (Fits free) := by
  cases step with
  | visit => exact fun _ hfree => .inl hfree
  | localClass | anonymousClass => exact fun _ _ => trivial
  | enter | declare | caseConstant => trivial

theorem Step.admitted_of_free {t : Table} (h : free here) (steps : List Step) :
    Step.Admitted t free (Fits free) here steps :=
  ⟨Step.allGuarded_of_free h h _, fun step _ => step.goes_fits t⟩

theorem admission_fits {t : Table}
    (hstatic : ∀ (c : ClassId) (body member part : Node), (t.decl c).body = some body →
      member ∈ Table.memberNodes body → Table.MemberKind.ofKind member.kind = .staticBlock →
      part ∈ member.namedChildren → Fits free (.code part (t.decl c).scope)) : Admission t free (Fits free) where
  child h hhands _ := by
    rcases h with hfree | hblock | hinert
    · exact .inl hfree
    · rw [hblock] at hhands
      cases hhands
    · rw [hinert] at hhands
      cases hhands
  apart _ _ hfree := .inl hfree
  plan h hne _ := by
    rcases h with hfree | hblock | hinert
    · exact Step.admitted_of_free hfree _
    · refine ⟨?_, fun step _ => step.goes_fits t⟩
      rw [Node.plan, hblock]
      exact ⟨trivial, fun inner hinner => Step.allGuarded_visitStatements hinner _⟩
    · exact absurd hinert hne
  creation h hcreation := by
    rcases h with hfree | hblock | hinert
    · exact Step.admitted_of_free hfree _
    · cases hcreation.symm.trans hblock
    · cases hcreation.symm.trans hinert
  member {c body member} _ hbody hmember := {
    declarators := fun _ hfree => Step.admitted_of_free hfree _
    apart := fun _ _ _ hfree => .inl hfree
    block := fun hkind => .inr (.inl (construct_of_block hkind))
    staticBlock := fun hkind part hpart => hstatic c body member part hbody hmember hkind hpart
    cls := fun _ _ _ => trivial }

/-! ## relations between two walks -/

structure Lockstep (t : Table) where
  /-- the scope of the second walk for a scope of the first -/
  scope : ScopeId → ScopeId
  /-- the scopes in which something may be declared -/
  free : ScopeId → Prop
  store : Scopes → Scopes → Prop
  /-- where the second walk may part from the first -/
  escape : Halt → WalkState → Prop
  levels : ∀ {a b : Scopes} (sc : ScopeId), store a b →
    (b.levels (scope sc)).map Frame.view = (a.levels sc).map Frame.view
  child : ∀ {a b : Scopes} (sc : ScopeId) (label : String), store a b →
    (b.child (scope sc) label).1 = scope (a.child sc label).1 ∧ free (a.child sc label).1 ∧
      store (a.child sc label).2 (b.child (scope sc) label).2
  declare : ∀ {a b : Scopes} {sc : ScopeId} (name : String), free sc → store a b →
    store (a.declare sc name) (b.declare (scope sc) name)
  declareType : ∀ {a b : Scopes} {sc : ScopeId} (name : String) (c : ClassId), free sc →
    store a b → store (a.declareType sc name c) (b.declareType (scope sc) name c)
  classScope : ∀ c, scope (t.decl c).scope = (t.decl c).scope
  /-- the regions that are walked -/
  enters : Subject.CodeRegion → Prop
  admission : Admission t free enters

namespace Lockstep

variable {t : Table} (K : Lockstep t) {α β : Type}

variable {γ δ : Type} {a b : Scopes}

def state (a b : WalkState) : Prop :=
  K.store a.scopes b.scopes ∧ b.edges = a.edges ∧ b.findings = a.findings

/-- how the results of two walks belong together -/
def Results (R : α → β → Prop) :
    EStateM.Result Halt WalkState α → EStateM.Result Halt WalkState β → Prop
  | .ok x a, .ok y b => R x y ∧ K.state a b
  | .error h a, .error k b => (k = h ∧ K.state a b) ∨ K.escape k b
  | .ok _ _, .error k b => K.escape k b
  | .error _ _, .ok _ _ => False

def Walks (R : α → β → Prop) (x : Walk α) (y : Walk β) : Prop :=
  ∀ a b, K.state a b → K.Results R (x a) (y b)

/-- of walks that give no value -/
abbrev Runs (x y : Walk Unit) : Prop :=
  K.Walks (fun _ _ => True) x y

variable {K}

theorem walks_pure {R : α → β → Prop} {x : α} {y : β} (h : R x y) : K.Walks R (pure x) (pure y) :=
  fun _ _ hst => ⟨h, hst⟩

theorem Walks.bind {R : α → β → Prop} {Q : γ → δ → Prop} {x : Walk α} {y : Walk β}
    {f : α → Walk γ} {g : β → Walk δ} (h : K.Walks R x y)
    (hnext : ∀ p q, R p q → K.Walks Q (f p) (g q)) : K.Walks Q (x >>= f) (y >>= g) := by
  intro a b hst
  have hfirst := h a b hst
  cases hx : x a with
  | ok p a₁ =>
    cases hy : y b with
    | ok q b₁ =>
      rw [hx, hy] at hfirst
      rw [Run.bind_of_ok hx, Run.bind_of_ok hy]
      exact hnext p q hfirst.1 a₁ b₁ hfirst.2
    | error k b₁ =>
      rw [hx, hy] at hfirst
      rw [Run.bind_of_ok hx, Run.bind_of_error hy]
      have hescape : K.escape k b₁ := hfirst
      cases f p a₁ with
      | ok => exact hescape
      | error => exact .inr hescape
  | error e a₁ =>
    cases hy : y b with
    | ok q b₁ =>
      rw [hx, hy] at hfirst
      exact hfirst.elim
    | error k b₁ =>
      rw [hx, hy] at hfirst
      rw [Run.bind_of_error hx, Run.bind_of_error hy]
      exact hfirst

theorem Walks.andThen {x y : Walk Unit} {Q : α → β → Prop} {f : Walk α} {g : Walk β} (h : K.Runs x y)
    (hnext : K.Walks Q f g) : K.Walks Q (x >>= fun _ => f) (y >>= fun _ => g) :=
  h.bind fun _ _ _ => hnext

theorem runs_forM {xs : List α} {f g : α → Walk Unit} (h : ∀ x ∈ xs, K.Runs (f x) (g x)) :
    K.Runs (xs.forM f) (xs.forM g) := by
  induction xs with
  | nil => exact walks_pure trivial
  | cons x xs ih =>
    exact (h x List.mem_cons_self).andThen (ih fun y hy => h y (List.mem_cons_of_mem _ hy))

theorem runs_ite {p : Prop} [Decidable p] {R : α → β → Prop} {x x' : Walk α} {y y' : Walk β}
    (hyes : K.Walks R x y) (hno : K.Walks R x' y') :
    K.Walks R (if p then x else x') (if p then y else y') := by
  split
  · exact hyes
  · exact hno

/-- after a step that gives both walks the same value -/
theorem Walks.bindEq {Q : γ → δ → Prop} {x y : Walk α} {f : α → Walk γ} {g : α → Walk δ}
    (h : K.Walks Eq x y) (hnext : ∀ p, K.Walks Q (f p) (g p)) : K.Walks Q (x >>= f) (y >>= g) := by
  refine h.bind fun p q hpq => ?_
  rw [← hpq]
  exact hnext p

/-! ## steps that look -/

section
variable {s : Subject} {K : Lockstep s.table}

theorem walks_lift (x : Except Fault α) : K.Walks Eq (Subject.lift x) (Subject.lift x) := by
  intro a b hst
  cases x with
  | ok p => exact ⟨rfl, hst⟩
  | error e => exact .inl ⟨rfl, hst⟩

theorem walks_text (n : Node) : K.Walks Eq (s.text n) (s.text n) :=
  walks_lift _

theorem walks_optionalText (n : Option Node) : K.Walks Eq (s.optionalText n) (s.optionalText n) :=
  walks_lift _

theorem walks_innermostClass (sc : ScopeId) :
    K.Walks Eq (Subject.innermostClass sc) (Subject.innermostClass (K.scope sc)) :=
  fun _ _ hst => ⟨(Table.innermostClass_of_view (K.levels sc hst.1)).symm, hst⟩

theorem walks_resolveName (sc : ScopeId) (name : String) :
    K.Walks Eq (s.resolveName sc name) (s.resolveName (K.scope sc) name) :=
  fun _ _ hst => ⟨(Table.resolveName_of_view s.table (K.levels sc hst.1) name).symm, hst⟩

theorem walks_qualifiedClass (n : Option Node) (sc : ScopeId) :
    K.Walks Eq (s.qualifiedClass n sc) (s.qualifiedClass n (K.scope sc)) := by
  refine (walks_optionalText n).bindEq fun written => ?_
  intro a b hst
  refine ⟨?_, hst⟩
  rw [Table.resolveTypeText_of_view s.table (K.levels sc hst.1)]

theorem walks_capturedClass (sc : ScopeId) (written : String) :
    K.Walks Eq (s.capturedClass sc written) (s.capturedClass (K.scope sc) written) := by
  intro a b hst
  refine ⟨?_, hst⟩
  rw [Table.resolveTypeText_of_view s.table (K.levels sc hst.1)]

theorem walks_receiverOf (object n : Node) (sc : ScopeId) :
    K.Walks Eq (s.receiverOf object n sc) (s.receiverOf object n (K.scope sc)) := by
  unfold Subject.receiverOf
  split
  · exact (walks_innermostClass sc).bindEq fun _ => walks_pure rfl
  split
  · exact (walks_innermostClass sc).bindEq fun _ => walks_pure rfl
  split
  · exact (walks_qualifiedClass _ sc).bindEq fun _ => walks_pure rfl
  split
  · exact (walks_qualifiedClass _ sc).bindEq fun _ => walks_pure rfl
  · exact walks_pure rfl

theorem walks_receiverText (object : Node) (receiver : Subject.Receiver) :
    K.Walks Eq (s.receiverText object receiver) (s.receiverText object receiver) := by
  refine (walks_text object).bindEq fun written => ?_
  split <;> exact walks_pure rfl

/-! ## steps that record -/

theorem runs_note (reason : Reason) (n : Node) : K.Runs (s.note reason n) (s.note reason n) := by
  intro a b hst
  unfold Subject.note
  split
  · refine ⟨trivial, hst.1, hst.2.1, ?_⟩
    show b.findings ++ _ = a.findings ++ _
    rw [hst.2.2]
  · exact .inl ⟨rfl, hst⟩

theorem runs_addEdge (m : MethodId) : K.Runs (Subject.addEdge m) (Subject.addEdge m) := by
  intro a b hst
  refine ⟨trivial, hst.1, ?_, hst.2.2⟩
  show (if b.edges.contains m then b.edges else b.edges ++ [m]) = _
  rw [hst.2.1]

theorem runs_noteInherited (c : Option ClassId) (reason : String → Reason) (n : Node) :
    K.Runs (s.noteInherited c reason n) (s.noteInherited c reason n) := by
  cases c with
  | none => exact walks_pure trivial
  | some c => exact runs_ite (runs_note _ n) (walks_pure trivial)

theorem runs_checkReference (ref : Reference) (name : String) (n : Node) :
    K.Runs (s.checkReference ref name n) (s.checkReference ref name n) := by
  cases ref with
  | type => exact walks_pure trivial
  | unresolved | localName | staticImport | methods => exact runs_noteInherited _ _ n
  | field field via shadow =>
    exact (runs_noteInherited _ _ n).andThen (runs_ite (runs_note _ n) (walks_pure trivial))

theorem runs_visitName (n : Node) (sc : ScopeId) : K.Runs (s.visitName n sc) (s.visitName n (K.scope sc)) :=
  (walks_text n).bindEq fun name =>
    (walks_resolveName sc name).bindEq fun ref => runs_checkReference ref name n

theorem runs_visitCaseConstant (n : Node) (sc : ScopeId) :
    K.Runs (s.visitCaseConstant n sc) (s.visitCaseConstant n (K.scope sc)) := by
  refine (walks_text n).bindEq fun name => (walks_resolveName sc name).bindEq fun ref => ?_
  cases ref with
  | unresolved => exact walks_pure trivial
  | type | localName | staticImport | methods | field => exact runs_checkReference _ name n

theorem runs_visitReceiver (n : Node) (sc : ScopeId) :
    K.Runs (s.visitReceiver n sc) (s.visitReceiver n (K.scope sc)) :=
  (walks_innermostClass sc).bindEq fun _ => runs_ite (runs_note _ n) (walks_pure trivial)

theorem runs_checkCall (ref : Reference) (name : String) (n : Node) :
    K.Runs (s.checkCall ref name n) (s.checkCall ref name n) := by
  cases ref with
  | unresolved => exact runs_noteInherited _ (fun _ => .callsInherited name) n
  | staticImport => exact runs_noteInherited _ _ n
  | localName | field | type => exact runs_note _ n
  | methods overloads via shadow =>
    refine runs_ite ((runs_noteInherited _ _ n).andThen (runs_forM fun callee _ => ?_))
      (walks_pure trivial)
    exact runs_ite (walks_pure trivial) (runs_ite (runs_addEdge callee) (runs_note _ n))

end

/-! ## steps that open and fill scopes -/

/-- the same fault, or related values -/
def Outcomes {α β : Type} (R : α → β → Prop) : Except Fault α → Except Fault β → Prop
  | .ok x, .ok y => R x y
  | .error e, .error e' => e' = e
  | _, _ => False

theorem Outcomes.bind {α β : Type} {R : α → β → Prop} {Q : γ → δ → Prop} {x : Except Fault α}
    {y : Except Fault β} {f : α → Except Fault γ} {g : β → Except Fault δ} (h : Outcomes R x y)
    (hnext : ∀ p q, R p q → Outcomes Q (f p) (g q)) : Outcomes Q (x >>= f) (y >>= g) := by
  cases x with
  | ok p =>
    cases y with
    | ok q => exact hnext p q h
    | error => exact h.elim
  | error e =>
    cases y with
    | ok => exact h.elim
    | error e' => exact h

/-- corresponding scopes in related stores; `needed` tells whether the scope must be free -/
def Opened (K : Lockstep t) (needed : Prop) (p q : ScopeId × Scopes) : Prop :=
  q.1 = K.scope p.1 ∧ (needed → K.free p.1) ∧ K.store p.2 q.2

theorem store_declareAll {sc : ScopeId} (hfree : K.free sc) (h : K.store a b)
    (names : List String) : K.store (a.declareAll sc names) (b.declareAll (K.scope sc) names) := by
  induction names generalizing a b with
  | nil => exact h
  | cons name names ih => exact ih (K.declare name hfree h)

theorem outcomes_declareNodes {sc : ScopeId} (source : SourceUnit)
    (names : List Node) (hfree : K.free sc) (h : K.store a b) :
    Outcomes K.store (a.declareNodes source sc names) (b.declareNodes source (K.scope sc) names) := by
  unfold Scopes.declareNodes
  cases names.mapM source.text with
  | error e => exact rfl
  | ok texts => exact store_declareAll hfree h texts

theorem outcomes_childDeclaring (source : SourceUnit) (parent : ScopeId)
    (label : String) (names : List Node) (h : K.store a b) :
    Outcomes (K.Opened True) (a.childDeclaring source parent label names)
      (b.childDeclaring source (K.scope parent) label names) := by
  obtain ⟨hid, hfree, hstore⟩ := K.child parent label h
  show Outcomes _ ((a.child parent label).2.declareNodes source (a.child parent label).1 names >>= _)
    ((b.child (K.scope parent) label).2.declareNodes source (b.child (K.scope parent) label).1 names
      >>= _)
  rw [hid]
  exact (outcomes_declareNodes source names hfree hstore).bind fun _ _ hfilled =>
    ⟨hid, fun _ => hfree, hfilled⟩

theorem outcomes_locate (source : SourceUnit) (here inner : ScopeId) (place : Place) (h : K.store a b) :
    Outcomes (K.Opened (place.Free K.free here inner)) (place.locate source here inner a)
      (place.locate source (K.scope here) (K.scope inner) b) := by
  induction place with
  | here => exact ⟨rfl, id, h⟩
  | inner => exact ⟨rfl, id, h⟩
  | fresh below label names ih =>
    refine ih.bind fun p q hbelow => ?_
    obtain ⟨sc, a₁⟩ := p
    obtain ⟨sc', b₁⟩ := q
    obtain ⟨rfl, _, hstore⟩ := hbelow
    exact outcomes_childDeclaring source sc label names hstore

/-- what is left to do after a step, on both sides -/
def Actions (K : Lockstep t) : Action → Action → Prop
  | .none, .none => True
  | .visit part sc, .visit part' sc' => part' = part ∧ sc' = K.scope sc ∧ K.enters (.code part sc)
  | .caseConstant name sc, .caseConstant name' sc' => name' = name ∧ sc' = K.scope sc
  | .localClass d sc, .localClass d' sc' =>
    d' = d ∧ sc' = K.scope sc ∧ K.free sc ∧ ∀ c, t.classFor d = some c → K.enters (.body c)
  | .anonymousClass n body sc, .anonymousClass n' body' sc' =>
    n' = n ∧ body' = body ∧ sc' = K.scope sc ∧ ∀ c, t.classFor n = some c → K.enters (.body c)
  | _, _ => False

def Progresses (K : Lockstep t) (step : Step) (inner : ScopeId) (p q : Progress) : Prop :=
  K.Actions p.action q.action ∧ q.inner = K.scope p.inner ∧ step.Leaves K.free inner p.inner ∧
    K.store p.scopes q.scopes

theorem outcomes_perform (source : SourceUnit) (here inner : ScopeId) (step : Step)
    (hstep : step.Guarded (fun part => ∀ sc, K.enters (.code part sc)) K.free here inner)
    (hgoes : step.Goes t K.free K.enters) (h : K.store a b) :
    Outcomes (K.Progresses step inner) (step.perform source here inner a)
      (step.perform source (K.scope here) (K.scope inner) b) := by
  cases step with
  | enter label names =>
    refine (outcomes_childDeclaring source here label names h).bind fun p q hopened => ?_
    exact ⟨trivial, hopened.1, hopened.2.1 trivial, hopened.2.2⟩
  | declare name place =>
    refine (outcomes_locate source here inner place h).bind fun p q hplace => ?_
    obtain ⟨sc, a₁⟩ := p
    obtain ⟨sc', b₁⟩ := q
    obtain ⟨rfl, hfree, hstore⟩ := hplace
    exact (outcomes_declareNodes source [name] (hfree hstep) hstore).bind fun _ _ hfilled =>
      ⟨trivial, rfl, rfl, hfilled⟩
  | visit part place =>
    refine (outcomes_locate source here inner place h).bind fun p q hplace => ?_
    obtain ⟨hsc, hfree, hstore⟩ := hplace
    exact ⟨⟨rfl, hsc, hstep.elim (fun hplace => hgoes _ (hfree hplace)) fun hany => hany _⟩, rfl, rfl, hstore⟩
  | caseConstant name => exact ⟨⟨rfl, rfl⟩, rfl, rfl, h⟩
  | localClass declaration => exact ⟨⟨rfl, rfl, hstep, hgoes⟩, rfl, rfl, h⟩
  | anonymousClass creation body => exact ⟨⟨rfl, rfl, rfl, hgoes⟩, rfl, rfl, h⟩

/-! ## the ways on -/

structure Onwards (K : Lockstep t) (go go' : Subject.Onward) : Prop where
  code : ∀ (n : Node) (sc : ScopeId), K.enters (.code n sc) →
    K.Runs (go (.code n sc)) (go' (.code n (K.scope sc)))
  body : ∀ c : ClassId, K.enters (.body c) → K.Runs (go (.body c)) (go' (.body c))

section
variable {s : Subject} {K : Lockstep s.table} {go go' : Subject.Onward}

theorem runs_setScopes {a b : Scopes} (h : K.store a b) :
    K.Runs (Subject.setScopes a) (Subject.setScopes b) :=
  fun _ _ hst => ⟨trivial, h, hst.2.1, hst.2.2⟩

theorem walks_openScope (parent : ScopeId) (label : String) :
    K.Walks (fun p q => q = K.scope p ∧ K.free p) (Subject.openScope parent label)
      (Subject.openScope (K.scope parent) label) := by
  intro a b hst
  obtain ⟨hid, hfree, hstore⟩ := K.child parent label hst.1
  exact ⟨⟨hid, hfree⟩, hstore, hst.2.1, hst.2.2⟩

theorem walks_lift_scopes {γ δ : Type} {R : α → β → Prop} {Q : γ → δ → Prop} {f : Scopes → Except Fault α}
    {g : Scopes → Except Fault β} {next : α → Walk γ} {next' : β → Walk δ}
    (h : ∀ a b, K.store a b → Outcomes R (f a) (g b)) (hnext : ∀ p q, R p q → K.Walks Q (next p) (next' q)) :
    K.Walks Q (get >>= fun st => Subject.lift (f st.scopes) >>= next)
      (get >>= fun st => Subject.lift (g st.scopes) >>= next') := by
  intro a b hst
  have hdone := h a.scopes b.scopes hst.1
  show K.Results Q ((Subject.lift (f a.scopes) >>= next) a) ((Subject.lift (g b.scopes) >>= next') b)
  cases hx : f a.scopes with
  | error e =>
    cases hy : g b.scopes with
    | error e' =>
      rw [hx, hy] at hdone
      obtain rfl : e' = e := hdone
      exact .inl ⟨rfl, hst⟩
    | ok q =>
      rw [hx, hy] at hdone
      exact hdone.elim
  | ok p =>
    cases hy : g b.scopes with
    | error e' =>
      rw [hx, hy] at hdone
      exact hdone.elim
    | ok q =>
      rw [hx, hy] at hdone
      exact hnext p q hdone a b hst

theorem runs_declareLocal (c : ClassId) {sc : ScopeId} (hfree : K.free sc) :
    K.Runs (s.declareLocal c sc) (s.declareLocal c (K.scope sc)) := by
  unfold Subject.declareLocal
  split
  · exact walks_pure trivial
  · rename_i name _
    exact fun a b hst => ⟨trivial, K.declareType name c hfree hst.1, hst.2.1, hst.2.2⟩

section
variable (hgo : K.Onwards go go')

variable {sc : ScopeId}
include hgo

theorem runs_reject {n : Node} (hapart : ∀ c ∈ n.children, ∀ x, K.free x → K.enters (.code c x)) (reason : Reason)
    (sc : ScopeId) : K.Runs (s.reject go reason n sc) (s.reject go' reason n (K.scope sc)) := by
  refine (runs_note reason n).andThen ((walks_openScope sc _).bind fun p q hopened => ?_)
  obtain ⟨rfl, hfree⟩ := hopened
  exact runs_forM fun part hpart => hgo.code part p (hapart part (Node.mem_of_mem_namedChildren hpart) p hfree)

section
variable {n : Node} (hparts : ∀ c ∈ n.children, K.enters (.code c sc))
include hparts

theorem runs_visitFieldAccess (hapart : ∀ c ∈ n.children, ∀ x, K.free x → K.enters (.code c x)) :
    K.Runs (s.visitFieldAccess go n sc) (s.visitFieldAccess go' n (K.scope sc)) := by
  unfold Subject.visitFieldAccess
  split
  · rename_i object field hobject _
    refine runs_ite ?_ ?_
    · refine (walks_qualifiedClass _ sc).bindEq fun c => runs_ite ?_ (walks_pure trivial)
      exact (walks_text n).bindEq fun _ => runs_note _ n
    · refine (walks_receiverOf object n sc).bindEq fun receiver => ?_
      split
      · exact hgo.code object sc (hparts object (Node.mem_of_child? hobject))
      · exact (walks_text n).bindEq fun _ => runs_note _ n
      · refine runs_ite ?_ (walks_pure trivial)
        exact (walks_receiverText object _).bindEq fun _ => runs_note _ n
  · exact runs_reject hgo hapart _ sc

theorem runs_visitCallee (name : String) :
    K.Runs (s.visitCallee go n sc name) (s.visitCallee go' n (K.scope sc) name) := by
  unfold Subject.visitCallee
  split
  · intro a b hst
    have hcall := runs_checkCall (K := K) (s.table.resolveMethod a.scopes sc name
      (Node.argumentCount (n.child? "arguments"))) name n a b hst
    show K.Results _ _ (s.checkCall (s.table.resolveMethod b.scopes (K.scope sc) name _) name n b)
    rw [Table.resolveMethod_of_view s.table (K.levels sc hst.1)]
    exact hcall
  · rename_i object hobject
    refine (walks_receiverOf object n sc).bindEq fun receiver => ?_
    split
    · exact hgo.code object sc (hparts object (Node.mem_of_child? hobject))
    · exact runs_note _ n
    · refine runs_ite ?_ (walks_pure trivial)
      exact (walks_receiverText object _).bindEq fun _ => runs_note _ n

theorem runs_visitInvocation : K.Runs (s.visitInvocation go n sc) (s.visitInvocation go' n (K.scope sc)) := by
  refine (walks_optionalText _).bindEq fun name => (runs_visitCallee hgo hparts name).andThen ?_
  cases harguments : n.child? "arguments" with
  | none => exact walks_pure trivial
  | some arguments => exact hgo.code arguments sc (hparts arguments (Node.mem_of_child? harguments))

theorem runs_visitConstructorCall :
    K.Runs (Subject.visitConstructorCall go n sc) (Subject.visitConstructorCall go' n (K.scope sc)) :=
  runs_forM fun c hc => hgo.code c sc (hparts c (Node.mem_of_mem_namedChildren (List.mem_filter.mp hc).1))

theorem runs_visitOuterInstance :
    K.Runs (s.visitOuterInstance go n sc) (s.visitOuterInstance go' n (K.scope sc)) := by
  unfold Subject.visitOuterInstance
  split
  · rename_i qualifier hqualifier
    have hmem := Node.mem_of_mem_namedChildren (List.mem_of_find?_eq_some hqualifier)
    refine runs_ite ?_ (hgo.code qualifier sc (hparts qualifier hmem))
    exact (walks_innermostClass sc).bindEq fun _ => runs_ite (runs_note _ n) (walks_pure trivial)
  · refine (walks_optionalText _).bindEq fun written => ?_
    refine (walks_capturedClass sc written).bindEq fun captured => ?_
    split
    · exact runs_note _ n
    · exact walks_pure trivial

theorem runs_visitMethodReference :
    K.Runs (s.visitMethodReference go n sc) (s.visitMethodReference go' n (K.scope sc)) := by
  unfold Subject.visitMethodReference
  split
  · exact runs_note _ n
  · rename_i target others hnamed
    have henters := hparts target (Node.mem_of_mem_namedChildren (hnamed ▸ List.mem_cons_self))
    refine runs_ite (runs_visitReceiver target sc) ?_
    split
    · rename_i haccess
      have hhands : target.construct.handsOn = true := by
        rw [construct_of_isThisAccess haccess]
        rfl
      exact runs_visitFieldAccess hgo (fun _ hc => K.admission.child henters hhands hc)
        fun _ hc _ hfree => K.admission.apart henters hc hfree
    refine runs_ite ?_ (runs_ite ?_ (hgo.code target sc henters))
    · refine (walks_qualifiedClass _ sc).bindEq fun c => runs_ite ?_ (walks_pure trivial)
      exact (walks_text n).bindEq fun _ => runs_note _ n
    · refine (walks_text target).bindEq fun written => runs_ite ?_ (runs_ite (walks_pure trivial)
        (runs_ite (runs_visitName target sc) (hgo.code target sc henters)))
      refine (walks_capturedClass sc written).bindEq fun captured => ?_
      split
      · exact runs_note _ n
      · exact walks_pure trivial

end

theorem runs_visitLocalClass {declaration : Node} (hfree : K.free sc)
    (henters : ∀ c, s.table.classFor declaration = some c → K.enters (.body c)) :
    K.Runs (s.visitLocalClass go declaration sc) (s.visitLocalClass go' declaration (K.scope sc)) := by
  unfold Subject.visitLocalClass
  split
  · exact runs_note _ declaration
  · rename_i c hfound
    exact (runs_declareLocal c hfree).andThen (hgo.body c (henters c hfound))

theorem runs_visitAnonymousClass {creation : Node}
    (henters : ∀ c, s.table.classFor creation = some c → K.enters (.body c)) :
    K.Runs (s.visitAnonymousClass go creation) (s.visitAnonymousClass go' creation) := by
  unfold Subject.visitAnonymousClass
  split
  · exact runs_note _ creation
  · rename_i c hfound
    exact hgo.body c (henters c hfound)

theorem runs_visitAction {x y : Action} (h : K.Actions x y) :
    K.Runs (s.visitAction go x) (s.visitAction go' y) := by
  cases x with
  | none =>
    cases y with
    | none => exact walks_pure trivial
    | _ => exact h.elim
  | visit part sc =>
    cases y with
    | visit part' sc' =>
      obtain ⟨rfl, rfl, henters⟩ := h
      exact hgo.code _ sc henters
    | _ => exact h.elim
  | caseConstant name sc =>
    cases y with
    | caseConstant name' sc' =>
      obtain ⟨rfl, rfl⟩ := h
      exact runs_visitCaseConstant _ sc
    | _ => exact h.elim
  | localClass declaration sc =>
    cases y with
    | localClass declaration' sc' =>
      obtain ⟨rfl, rfl, hfree, henters⟩ := h
      exact runs_visitLocalClass hgo hfree henters
    | _ => exact h.elim
  | anonymousClass creation body sc =>
    cases y with
    | anonymousClass creation' body' sc' =>
      obtain ⟨rfl, rfl, rfl, henters⟩ := h
      exact runs_visitAnonymousClass hgo henters
    | _ => exact h.elim

theorem runs_visitSteps {here inner : ScopeId} {steps : List Step}
    (hsteps : Step.AllGuarded (fun part => ∀ sc, K.enters (.code part sc)) K.free here inner steps)
    (hgoes : ∀ step ∈ steps, step.Goes s.table K.free K.enters) :
    K.Runs (s.visitSteps go here inner steps)
      (s.visitSteps go' (K.scope here) (K.scope inner) steps) := by
  induction steps generalizing inner with
  | nil => exact walks_pure trivial
  | cons step steps ih =>
    refine walks_lift_scopes (fun a b hstore => outcomes_perform s.table.source here inner step
      hsteps.1 (hgoes step List.mem_cons_self) hstore) fun p q hdone => ?_
    obtain ⟨haction, hinner, hleaves, hstore⟩ := hdone
    have hrest := ih (hsteps.2 p.inner hleaves) fun x hx => hgoes x (List.mem_cons_of_mem _ hx)
    rw [← hinner] at hrest
    exact (runs_setScopes hstore).andThen ((runs_visitAction hgo haction).andThen hrest)

theorem runs_admitted {steps : List Step} (h : Step.Admitted s.table K.free K.enters sc steps) :
    K.Runs (s.visitSteps go sc sc steps) (s.visitSteps go' (K.scope sc) (K.scope sc) steps) :=
  runs_visitSteps hgo h.guarded h.goes

theorem runs_visitCode {n : Node} (h : K.enters (.code n sc)) :
    K.Runs (s.visitCode go n sc) (s.visitCode go' n (K.scope sc)) := by
  have hapart : ∀ c ∈ n.children, ∀ x, K.free x → K.enters (.code c x) :=
    fun _ hc _ hfree => K.admission.apart h hc hfree
  have hparts : n.construct.handsOn = true → ∀ c ∈ n.children, K.enters (.code c sc) :=
    fun hhands _ hc => K.admission.child h hhands hc
  unfold Subject.visitCode
  refine runs_ite (runs_reject hgo hapart _ sc) (runs_ite (walks_pure trivial) ?_)
  split <;> rename_i hconstruct
  · exact walks_pure trivial
  · exact runs_visitName n sc
  · exact runs_visitReceiver n sc
  · exact runs_visitFieldAccess hgo (hparts (by rw [hconstruct]; rfl)) hapart
  · exact runs_visitInvocation hgo (hparts (by rw [hconstruct]; rfl))
  · exact runs_visitMethodReference hgo (hparts (by rw [hconstruct]; rfl))
  · exact runs_visitConstructorCall hgo (hparts (by rw [hconstruct]; rfl))
  · exact (runs_visitOuterInstance hgo (hparts (by rw [hconstruct]; rfl))).andThen
      (runs_admitted hgo (K.admission.creation h hconstruct))
  · exact runs_reject hgo hapart _ sc
  · exact runs_admitted hgo (K.admission.plan h (by assumption) hconstruct)

theorem runs_visitInnerMethod (hapart : ∀ part ∈ member.children, ∀ x, K.free x → K.enters (.code part x))
    (c : ClassId) :
    K.Runs (s.visitInnerMethod go (s.table.decl c) member)
      (s.visitInnerMethod go' (s.table.decl c) member) := by
  unfold Subject.visitInnerMethod
  split
  · rename_i body hbody
    let opening (scopes : Scopes) := scopes.childDeclaring s.table.source (s.table.decl c).scope
      "method" (((member.child? "parameters").map Node.parameterNames).getD [])
    refine walks_lift_scopes (R := K.Opened True) (f := opening) (g := opening) (fun a b hstore => ?_)
      fun p q hopened => ?_
    · have hopened := outcomes_childDeclaring s.table.source (s.table.decl c).scope "method"
        (((member.child? "parameters").map Node.parameterNames).getD []) hstore
      rwa [K.classScope c] at hopened
    · obtain ⟨sc, a⟩ := p
      obtain ⟨sc', b⟩ := q
      obtain ⟨rfl, hfree, hstore⟩ := hopened
      exact (runs_setScopes (store_declareAll (hfree trivial) hstore _)).andThen
        (hgo.code body sc (hapart body (Node.mem_of_child? hbody) sc (hfree trivial)))
  · exact walks_pure trivial

theorem runs_visitConstantArguments
    (hapart : ∀ part ∈ member.children, ∀ x, K.free x → K.enters (.code part x)) (c : ClassId) :
    K.Runs (Subject.visitConstantArguments go (s.table.decl c) member)
      (Subject.visitConstantArguments go' (s.table.decl c) member) := by
  unfold Subject.visitConstantArguments
  split
  · exact walks_pure trivial
  · rename_i arguments harguments
    have hopen := walks_openScope (K := K) (s.table.decl c).scope "enum_constant"
    rw [K.classScope c] at hopen
    refine hopen.bind fun p q hopened => ?_
    obtain ⟨rfl, hfree⟩ := hopened
    exact hgo.code arguments p (hapart arguments (Node.mem_of_child? harguments) p hfree)

theorem runs_visitMember {c : ClassId} (h : s.table.MemberEnters K.free K.enters c member) :
    K.Runs (s.visitMember go (s.table.decl c) member)
      (s.visitMember go' (s.table.decl c) member) := by
  have hnested : (Table.MemberKind.ofKind member.kind = .constant ∨
      ∃ kind, Table.MemberKind.ofKind member.kind = .nested kind) →
      K.Runs ((s.table.classFor member).forM fun c => go (.body c))
        ((s.table.classFor member).forM fun c => go' (.body c)) := by
    intro hkind
    cases hfound : s.table.classFor member with
    | none => exact walks_pure trivial
    | some k => exact hgo.body k (h.cls k hkind hfound)
  have hcode : ∀ part, K.enters (.code part (s.table.decl c).scope) →
      K.Runs (go (.code part (s.table.decl c).scope)) (go' (.code part (s.table.decl c).scope)) := by
    intro part henters
    have hpart := hgo.code part _ henters
    rwa [K.classScope c] at hpart
  unfold Subject.visitMember
  split <;> rename_i hkind
  · have hopen := walks_openScope (K := K) (s.table.decl c).scope "field"
    rw [K.classScope c] at hopen
    refine hopen.bind fun p q hopened => ?_
    obtain ⟨rfl, hfree⟩ := hopened
    exact runs_admitted hgo (h.declarators p hfree)
  · exact runs_visitInnerMethod hgo h.apart c
  · exact hcode member (h.block hkind)
  · exact runs_forM fun part hpart => hcode part (h.staticBlock hkind part hpart)
  · exact hnested (.inr ⟨_, hkind⟩)
  · exact (runs_visitConstantArguments hgo h.apart c).andThen (hnested (.inl hkind))
  · exact walks_pure trivial

theorem runs_visitBody {c : ClassId} (h : K.enters (.body c)) : K.Runs (s.visitBody go c) (s.visitBody go' c) := by
  simp only [Subject.visitBody]
  cases hbody : (s.table.decl c).body with
  | none => exact walks_pure trivial
  | some body => exact runs_forM fun member hmember => runs_visitMember hgo (K.admission.member h hbody hmember)

end

theorem onwards_walkRegion (depth : Nat) : K.Onwards (s.walkRegion depth) (s.walkRegion depth) := by
  induction depth with
  | zero =>
    exact ⟨fun _ _ _ _ _ hst => .inl ⟨rfl, hst⟩, fun _ _ _ _ hst => .inl ⟨rfl, hst⟩⟩
  | succ depth ih => exact ⟨fun _ _ h => runs_visitCode ih h, fun _ h => runs_visitBody ih h⟩

theorem runs_walkMethod (body : Node) (h : ∀ sc, K.free sc → K.enters (.code body sc)) :
    K.Runs (s.walkMethod body) (s.walkMethod body) := by
  let opening (scopes : Scopes) := scopes.childDeclaring s.table.source
    (s.table.decl s.method.owner).scope s!"method_{(s.table.method s.method).name}"
    (((s.table.method s.method).parameters.map Node.parameterNames).getD [])
  refine walks_lift_scopes (R := K.Opened True) (f := opening) (g := opening) (fun a b hstore => ?_)
    fun p q hopened => ?_
  · have hopened := outcomes_childDeclaring s.table.source (s.table.decl s.method.owner).scope
      s!"method_{(s.table.method s.method).name}"
      (((s.table.method s.method).parameters.map Node.parameterNames).getD []) hstore
    rwa [K.classScope] at hopened
  · obtain ⟨sc, a⟩ := p
    obtain ⟨sc', b⟩ := q
    obtain ⟨rfl, hfree, hstore⟩ := hopened
    exact (runs_setScopes hstore).andThen
      ((onwards_walkRegion (Subject.walkDepth s.table)).code body sc (h sc (hfree trivial)))

end

end Lockstep

/-- a verdict without a finding comes from a walk that runs through -/
theorem Table.walk_of_clear {t : Table} {scopes s' : Scopes} {m : MethodId} {edges : List MethodId}
    (h : t.classify scopes m = .ok (.clear edges, s')) :
    ∃ body st, (t.method m).body = some body ∧
      Subject.walkMethod { table := t, method := m } body { scopes } = .ok () st ∧ st.edges = edges ∧ st.scopes = s' := by
  unfold Table.classify at h
  split at h
  · cases h
  · rename_i body hbody
    cases hwalk : Subject.walkMethod { table := t, method := m } body { scopes } with
    | ok _ st =>
      rw [EStateM.run, hwalk] at h
      cases h
      exact ⟨body, st, hbody, hwalk, rfl, rfl⟩
    | error halt st =>
      rw [EStateM.run, hwalk] at h
      cases halt <;> cases h

end StaticPromotion
