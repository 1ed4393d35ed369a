import StaticPromotion.Access
import StaticPromotion.Proofs.Runs

/-!
# Walks are put together from steps

A walk reads the scopes, opens and fills them, notes uses, adds edges and hands parts on. What is to be shown of all walks,
or of two inspections side by side, need be shown of these steps only, and of one after the other.

* `Plain`                        a step that neither adds edges nor has to do with findings;
* `Subject.Compositional`        a relation between the walks of an inspection and those of one in another mode, that holds
                                 of the steps and of their composition;
* `Compositional.visitCode`, `Compositional.visitBody`    it then holds of the walk of every node and class. The calls
                                 without an object, which alone add edges, are left to the relation.
-/

namespace StaticPromotion

/-! ## steps that leave edges and findings alone -/

def Plain {α : Type} (x : Walk α) : Prop :=
  ∀ st, (Run.after (x st)).edges = st.edges ∧ (Run.after (x st)).findings = st.findings ∧
    ∀ finding st', x st ≠ .error (.access finding) st'

section
variable {α β : Type}

theorem plain_pure (a : α) : Plain (pure a : Walk α) :=
  fun _ => ⟨rfl, rfl, fun _ _ h => by cases h⟩

theorem plain_get : Plain (get : Walk WalkState) :=
  fun _ => ⟨rfl, rfl, fun _ _ h => by cases h⟩

theorem plain_lift (x : Except Fault α) : Plain (Subject.lift x) := by
  intro st
  cases x with
  | ok a => exact ⟨rfl, rfl, fun _ _ h => by cases h⟩
  | error e => exact ⟨rfl, rfl, fun _ _ h => by cases h⟩

theorem plain_fault (fault : Fault) : Plain (throw (.fault fault) : Walk α) :=
  fun _ => ⟨rfl, rfl, fun _ _ h => by cases h⟩

theorem Plain.bind {x : Walk α} {f : α → Walk β} (hx : Plain x) (hf : ∀ a, Plain (f a)) :
    Plain (x >>= f) := by
  intro st
  obtain ⟨hedges, hfindings, hnever⟩ := hx st
  cases hrun : x st with
  | ok a st₁ =>
    rw [hrun] at hedges hfindings
    obtain ⟨hedges', hfindings', hnever'⟩ := hf a st₁
    rw [Run.bind_of_ok hrun]
    exact ⟨hedges'.trans hedges, hfindings'.trans hfindings, hnever'⟩
  | error halt st₁ =>
    rw [hrun] at hedges hfindings
    rw [Run.bind_of_error hrun]
    refine ⟨hedges, hfindings, fun finding st' h => ?_⟩
    cases h
    exact hnever finding st₁ hrun

end

namespace Subject

section
variable (s : Subject)

theorem plain_text (n : Node) : Plain (s.text n) :=
  plain_lift _

theorem plain_optionalText (n : Option Node) : Plain (s.optionalText n) :=
  plain_lift _

theorem plain_setScopes (scopes : Scopes) : Plain (setScopes scopes) :=
  fun _ => ⟨rfl, rfl, fun _ _ h => by cases h⟩

theorem plain_openScope (parent : ScopeId) (label : String) : Plain (openScope parent label) :=
  plain_get.bind fun _ => (plain_setScopes _).bind fun _ => plain_pure _

theorem plain_innermostClass (scope : ScopeId) : Plain (innermostClass scope) :=
  plain_get.bind fun _ => plain_pure _

theorem plain_resolveName (scope : ScopeId) (name : String) : Plain (s.resolveName scope name) :=
  plain_get.bind fun _ => plain_pure _

theorem plain_qualifiedClass (n : Option Node) (scope : ScopeId) : Plain (s.qualifiedClass n scope) :=
  (s.plain_optionalText n).bind fun _ => plain_get.bind fun _ => plain_pure _

theorem plain_capturedClass (scope : ScopeId) (written : String) : Plain (s.capturedClass scope written) :=
  plain_get.bind fun _ => plain_pure _

theorem plain_receiverOf (object n : Node) (scope : ScopeId) : Plain (s.receiverOf object n scope) := by
  unfold receiverOf
  split
  · exact (plain_innermostClass scope).bind fun _ => plain_pure _
  split
  · exact (plain_innermostClass scope).bind fun _ => plain_pure _
  split
  · exact (s.plain_qualifiedClass _ scope).bind fun _ => plain_pure _
  split
  · exact (s.plain_qualifiedClass _ scope).bind fun _ => plain_pure _
  · exact plain_pure _

theorem plain_receiverText (object : Node) (receiver : Receiver) :
    Plain (s.receiverText object receiver) := by
  refine (s.plain_text object).bind fun _ => ?_
  split <;> exact plain_pure _

theorem plain_declareLocal (c : ClassId) (scope : ScopeId) : Plain (s.declareLocal c scope) := by
  unfold declareLocal
  split
  · exact plain_pure ()
  · exact fun _ => ⟨rfl, rfl, fun _ _ h => by cases h⟩

/-! ## relations between walks -/

/-- the inspection of the same method, exhaustive or not -/
def inMode (exhaustive : Bool) : Subject :=
  { s with exhaustive }

@[simp] theorem inMode_table (exhaustive : Bool) : (s.inMode exhaustive).table = s.table := rfl

end

/-- holds of the steps that walks consist of, here and in another mode, and of one after the other -/
structure Compositional (s : Subject) (mode : Bool)
    (R : {α : Type} → (Onward → Walk α) → (Onward → Walk α) → Prop) : Prop where
  plain : ∀ {α : Type} {x : Walk α}, Plain x → R (fun _ => x) fun _ => x
  note : ∀ reason n, R (fun _ => s.note reason n) fun _ => (s.inMode mode).note reason n
  go : ∀ region, R (fun go => go region) fun go => go region
  bind : ∀ {α β : Type} {x x' : Onward → Walk α} {f f' : Onward → α → Walk β}, R x x' →
    (∀ a, R (fun go => f go a) fun go => f' go a) →
    R (fun go => x go >>= f go) fun go => x' go >>= f' go

namespace Compositional

variable {s : Subject} {mode : Bool} {R : {α : Type} → (Onward → Walk α) → (Onward → Walk α) → Prop}
  (h : s.Compositional mode R)
include h

theorem pure {α : Type} (a : α) : R (fun _ => pure a) fun _ => pure a :=
  h.plain (plain_pure a)

omit h in
theorem ite {α : Type} {p : Prop} [Decidable p] {x y x' y' : Onward → Walk α} (hyes : R x x')
    (hno : R y y') : R (fun go => if p then x go else y go) fun go => if p then x' go else y' go := by
  by_cases hp : p
  · simp only [if_pos hp]
    exact hyes
  · simp only [if_neg hp]
    exact hno

theorem forM {α : Type} {xs : List α} {f f' : Onward → α → Walk Unit}
    (hf : ∀ x ∈ xs, R (fun go => f go x) fun go => f' go x) :
    R (fun go => xs.forM (f go)) fun go => xs.forM (f' go) := by
  induction xs with
  | nil => exact h.pure ()
  | cons x xs ih =>
    exact h.bind (hf x List.mem_cons_self) fun _ => ih fun y hy => hf y (List.mem_cons_of_mem _ hy)

theorem optionForM {α : Type} {x : Option α} {f f' : Onward → α → Walk Unit}
    (hf : ∀ a, R (fun go => f go a) fun go => f' go a) :
    R (fun go => x.forM (f go)) fun go => x.forM (f' go) := by
  cases x with
  | none => exact h.pure ()
  | some a => exact hf a

/-! ## names and receivers -/

theorem readNote {α : Type} {x : Walk α} (hx : Plain x) (reason : α → Reason) (n : Node) :
    R (fun _ => x >>= fun a => s.note (reason a) n) fun _ => x >>= fun a => (s.inMode mode).note (reason a) n :=
  h.bind (h.plain hx) fun a => h.note (reason a) n

theorem noteInherited (c : Option ClassId) (reason : String → Reason) (n : Node) :
    R (fun _ => s.noteInherited c reason n) fun _ => (s.inMode mode).noteInherited c reason n := by
  cases c with
  | none => exact h.pure ()
  | some c => exact ite (h.note _ n) (h.pure ())

theorem checkReference (ref : Reference) (name : String) (n : Node) :
    R (fun _ => s.checkReference ref name n) fun _ => (s.inMode mode).checkReference ref name n := by
  have hshadow := fun c => h.noteInherited c (.mayBeInherited name) n
  cases ref with
  | type c => exact h.pure ()
  | unresolved _ atClass => exact hshadow atClass
  | localName _ shadow => exact hshadow shadow
  | staticImport _ shadow => exact hshadow shadow
  | methods _ _ shadow => exact hshadow shadow
  | field field via shadow => exact h.bind (hshadow shadow) fun _ => ite (h.note _ n) (h.pure ())

theorem visitName (n : Node) (scope : ScopeId) :
    R (fun _ => s.visitName n scope) fun _ => (s.inMode mode).visitName n scope :=
  h.bind (h.plain (s.plain_text n)) fun name => h.bind (h.plain (s.plain_resolveName scope name)) fun ref =>
    h.checkReference ref name n

theorem visitCaseConstant (n : Node) (scope : ScopeId) :
    R (fun _ => s.visitCaseConstant n scope) fun _ => (s.inMode mode).visitCaseConstant n scope := by
  refine h.bind (h.plain (s.plain_text n)) fun name =>
    h.bind (h.plain (s.plain_resolveName scope name)) fun ref => ?_
  cases ref with
  | unresolved => exact h.pure ()
  | type | localName | staticImport | methods | field => exact h.checkReference _ name n

theorem visitReceiver (n : Node) (scope : ScopeId) :
    R (fun _ => s.visitReceiver n scope) fun _ => (s.inMode mode).visitReceiver n scope :=
  h.bind (h.plain (plain_innermostClass scope)) fun _ => ite (h.note _ n) (h.pure ())

theorem reject (reason : Reason) (n : Node) (scope : ScopeId) :
    R (fun go => s.reject go reason n scope) fun go => (s.inMode mode).reject go reason n scope :=
  h.bind (h.note reason n) fun _ => h.bind (h.plain (plain_openScope scope _)) fun _ =>
    h.forM fun _ _ => h.go _

theorem visitFieldAccess (n : Node) (scope : ScopeId) :
    R (fun go => s.visitFieldAccess go n scope) fun go => (s.inMode mode).visitFieldAccess go n scope := by
  cases hobject : n.child? "object" with
  | none =>
    simp only [Subject.visitFieldAccess, hobject]
    exact h.reject _ n scope
  | some object =>
    cases hfield : n.child? "field" with
    | none =>
      simp only [Subject.visitFieldAccess, hobject, hfield]
      exact h.reject _ n scope
    | some field =>
      simp only [Subject.visitFieldAccess, hobject, hfield]
      refine ite (h.bind (h.plain (s.plain_qualifiedClass _ scope)) fun c => ?_)
        (h.bind (h.plain (s.plain_receiverOf object n scope)) fun receiver => ?_)
      · exact ite (h.readNote (s.plain_text n) _ n) (h.pure ())
      · rcases receiver with _ | ⟨receiver, _ | c⟩
        · exact h.go _
        · exact h.readNote (s.plain_text n) _ n
        · exact ite (h.readNote (s.plain_receiverText object receiver) _ n) (h.pure ())

/-! ## calls -/

theorem visitCallee (n : Node) (scope : ScopeId) (name : String)
    (hcheck : n.child? "object" = none →
      ∀ ref, R (fun _ => s.checkCall ref name n) fun _ => (s.inMode mode).checkCall ref name n) :
    R (fun go => s.visitCallee go n scope name) fun go => (s.inMode mode).visitCallee go n scope name := by
  cases hobject : n.child? "object" with
  | none =>
    simp only [Subject.visitCallee, hobject]
    exact h.bind (h.plain plain_get) fun _ => hcheck hobject _
  | some object =>
    simp only [Subject.visitCallee, hobject]
    refine h.bind (h.plain (s.plain_receiverOf object n scope)) fun receiver => ?_
    rcases receiver with _ | ⟨receiver, _ | c⟩
    · exact h.go _
    · exact h.note _ n
    · exact ite (h.readNote (s.plain_receiverText object receiver) _ n) (h.pure ())

theorem visitInvocation (n : Node) (scope : ScopeId)
    (hcheck : n.child? "object" = none →
      ∀ name ref, R (fun _ => s.checkCall ref name n) fun _ => (s.inMode mode).checkCall ref name n) :
    R (fun go => s.visitInvocation go n scope) fun go => (s.inMode mode).visitInvocation go n scope :=
  h.bind (h.plain (s.plain_optionalText _)) fun name =>
    h.bind (h.visitCallee n scope name fun hobject => hcheck hobject name) fun _ =>
      h.optionForM fun _ => h.go _

theorem visitConstructorCall (n : Node) (scope : ScopeId) :
    R (fun go => Subject.visitConstructorCall go n scope) fun go => Subject.visitConstructorCall go n scope :=
  h.forM fun _ _ => h.go _

/-! ## steps of a plan -/

theorem visitLocalClass (declaration : Node) (scope : ScopeId) :
    R (fun go => s.visitLocalClass go declaration scope)
      fun go => (s.inMode mode).visitLocalClass go declaration scope := by
  cases hclass : s.table.classFor declaration with
  | none =>
    simp only [Subject.visitLocalClass, inMode_table, hclass]
    exact h.note _ declaration
  | some c =>
    simp only [Subject.visitLocalClass, inMode_table, hclass]
    exact h.bind (h.plain (s.plain_declareLocal c scope)) fun _ => h.go _

theorem visitAnonymousClass (creation : Node) :
    R (fun go => s.visitAnonymousClass go creation)
      fun go => (s.inMode mode).visitAnonymousClass go creation := by
  cases hclass : s.table.classFor creation with
  | none =>
    simp only [Subject.visitAnonymousClass, inMode_table, hclass]
    exact h.note _ creation
  | some c =>
    simp only [Subject.visitAnonymousClass, inMode_table, hclass]
    exact h.go _

theorem visitAction (action : Action) :
    R (fun go => s.visitAction go action) fun go => (s.inMode mode).visitAction go action := by
  cases action with
  | none => exact h.pure ()
  | visit part scope => exact h.go _
  | caseConstant name scope => exact h.visitCaseConstant name scope
  | localClass declaration scope => exact h.visitLocalClass declaration scope
  | anonymousClass creation _ _ => exact h.visitAnonymousClass creation

theorem visitSteps (scope inner : ScopeId) (steps : List Step) :
    R (fun go => s.visitSteps go scope inner steps)
      fun go => (s.inMode mode).visitSteps go scope inner steps := by
  induction steps generalizing inner with
  | nil => exact h.pure ()
  | cons step rest ih =>
    refine h.bind (h.plain plain_get) fun st => h.bind (h.plain (plain_lift _)) fun done => ?_
    refine h.bind (h.plain (plain_setScopes done.scopes)) fun _ => ?_
    exact h.bind (h.visitAction done.action) fun _ => ih done.inner

/-! ## creations and method references -/

theorem visitOuterInstance (n : Node) (scope : ScopeId) :
    R (fun go => s.visitOuterInstance go n scope)
      fun go => (s.inMode mode).visitOuterInstance go n scope := by
  cases hqualifier : n.namedChildren.find? isQualifier with
  | some qualifier =>
    simp only [Subject.visitOuterInstance, hqualifier]
    refine ite (h.bind (h.plain (plain_innermostClass scope)) fun _ => ?_) (h.go _)
    exact ite (h.note _ n) (h.pure ())
  | none =>
    simp only [Subject.visitOuterInstance, hqualifier]
    refine h.bind (h.plain (s.plain_optionalText _)) fun written =>
      h.bind (h.plain (s.plain_capturedClass scope written)) fun captured => ?_
    cases captured with
    | none => exact h.pure ()
    | some c => exact h.note _ n

theorem visitCreation (n : Node) (scope : ScopeId) :
    R (fun go => s.visitCreation go n scope) fun go => (s.inMode mode).visitCreation go n scope :=
  h.bind (h.visitOuterInstance n scope) fun _ => h.visitSteps scope scope _

theorem visitMethodReference (n : Node) (scope : ScopeId) :
    R (fun go => s.visitMethodReference go n scope)
      fun go => (s.inMode mode).visitMethodReference go n scope := by
  cases hparts : n.namedChildren with
  | nil =>
    simp only [Subject.visitMethodReference, hparts]
    exact h.note _ n
  | cons target others =>
    simp only [Subject.visitMethodReference, hparts]
    refine ite (h.visitReceiver target scope) (ite (h.visitFieldAccess target scope) (ite ?_ (ite ?_ (h.go _))))
    · refine h.bind (h.plain (s.plain_qualifiedClass _ scope)) fun c => ?_
      exact ite (h.readNote (s.plain_text n) _ n) (h.pure ())
    · refine h.bind (h.plain (s.plain_text target)) fun written => ite ?_
        (ite (h.pure ()) (ite (h.visitName target scope) (h.go _)))
      refine h.bind (h.plain (s.plain_capturedClass scope written)) fun captured => ?_
      cases captured with
      | none => exact h.pure ()
      | some c => exact h.note _ n

/-! ## nodes and classes -/

theorem visitCode (n : Node) (scope : ScopeId)
    (hcheck : n.construct = .invocation → n.child? "object" = none →
      ∀ name ref, R (fun _ => s.checkCall ref name n) fun _ => (s.inMode mode).checkCall ref name n) :
    R (fun go => s.visitCode go n scope) fun go => (s.inMode mode).visitCode go n scope := by
  unfold Subject.visitCode
  refine ite (h.reject _ n scope) (ite (h.pure ()) ?_)
  cases hconstruct : n.construct with
  | inert => exact h.pure ()
  | identifier => exact h.visitName n scope
  | receiver => exact h.visitReceiver n scope
  | fieldAccess => exact h.visitFieldAccess n scope
  | invocation => exact h.visitInvocation n scope (hcheck hconstruct)
  | methodReference => exact h.visitMethodReference n scope
  | constructorCall => exact h.visitConstructorCall n scope
  | creation => exact h.visitCreation n scope
  | unknown => exact h.reject _ n scope
  | _ => exact h.visitSteps scope scope _

theorem visitInnerMethod (d : ClassDecl) (member : Node) :
    R (fun go => s.visitInnerMethod go d member) fun go => (s.inMode mode).visitInnerMethod go d member := by
  unfold Subject.visitInnerMethod
  cases member.child? "body" with
  | none => exact h.pure ()
  | some body =>
    refine h.bind (h.plain plain_get) fun st => h.bind (h.plain (plain_lift _)) fun opened => ?_
    exact h.bind (h.plain (plain_setScopes _)) fun _ => h.go _

theorem visitConstantArguments (d : ClassDecl) (member : Node) :
    R (fun go => Subject.visitConstantArguments go d member)
      fun go => Subject.visitConstantArguments go d member := by
  unfold Subject.visitConstantArguments
  cases member.child? "arguments" with
  | none => exact h.pure ()
  | some arguments => exact h.bind (h.plain (plain_openScope d.scope _)) fun _ => h.go _

theorem visitMember (d : ClassDecl) (member : Node) :
    R (fun go => s.visitMember go d member) fun go => (s.inMode mode).visitMember go d member := by
  unfold Subject.visitMember
  cases Table.MemberKind.ofKind member.kind with
  | field => exact h.bind (h.plain (plain_openScope d.scope _)) fun scope => h.visitSteps scope scope _
  | method => exact h.visitInnerMethod d member
  | block => exact h.go _
  | staticBlock => exact h.forM fun _ _ => h.go _
  | nested _ => exact h.optionForM fun _ => h.go _
  | constant => exact h.bind (h.visitConstantArguments d member) fun _ => h.optionForM fun _ => h.go _
  | other => exact h.pure ()

theorem visitBody (c : ClassId) : R (fun go => s.visitBody go c) fun go => (s.inMode mode).visitBody go c :=
  h.forM fun member _ => h.visitMember (s.table.decl c) member

end Compositional

end Subject

end StaticPromotion
