import StaticPromotion.Proofs.Lockstep
import StaticPromotion.Proofs.Restating

/-!
# Walks that follow each other

A walk over a table is followed by the walk over a table that says the same, with some methods become static. As long as the
first finds no use of an instance, the second finds none: it asks the same questions and has fewer reasons to stop. It does not
find the calls of the methods that became static, since they need no receiver.

* `Node.readTexts`            the nodes whose text is read where a walk comes to a node;
* `Following e S t t'`        the texts of an edited tree are those of the tree, wherever a walk reads them. `faults` tells
                              whether the second walk may meet a fault of its own, and `faithful` whether it finds all that
                              the first one finds;
* `Following.Follows R x y`   if `x` comes to its end then so does `y`, with a related value, the same scopes, and the edges
                              less those to `S`; or `y` meets such a fault;
* `Following.onwards_walkRegion`, `Following.runs_walkMethod`    every walk is followed by the same walk over the other table;
* `Following.classify`, `Following.classify_access`    so a verdict without direct use of the instance stays one. Where the
                              walks are `faithful`, one with such a use stays one, too.
-/

namespace StaticPromotion

variable {step : Step}

/-! ## the texts that are read -/

def Place.names : Place → List Node
  | .here | .inner => []
  | .fresh below _ names => below.names ++ names

/-- the identifiers that a step reads -/
def Step.names : Step → List Node
  | .enter _ names => names
  | .declare name place => name :: place.names
  | .visit _ place => place.names
  | .caseConstant name => [name]
  | .localClass _ | .anonymousClass _ _ => []

namespace Node

/-- the class in front of `this` or `super` -/
def qualifier (n : Node) : List Node :=
  if n.childKind "field" == "this" || (n.namedBut "object").any (·.kind == "super") then
    (n.child? "object").toList
  else []

/-- the class in front of `::super` or `::new` -/
def referencedClass (n : Node) : List Node :=
  match n.namedChildren with
  | [] => []
  | target :: others =>
    if others.any (·.kind == "super") || n.children.any (·.kind == "new") then [target] else []

/-- the texts that decide what a construct denotes -/
def ownTexts (n : Node) : List Node :=
  match n.construct with
  | .identifier => [n]
  | .fieldAccess => n.qualifier
  | .invocation => (n.child? "name").toList ++ n.qualifier
  | .creation => (n.child? "type").toList
  | .methodReference => n.referencedClass
  | _ => []

def readTexts (n : Node) : List Node :=
  n.ownTexts ++ n.plan.flatMap Step.names ++ (n.declaratorSteps .here).flatMap Step.names ++
    ((n.child? "parameters").map parameterNames).getD []

section
variable {n p : Node}

theorem mem_readTexts_own (h : p ∈ n.ownTexts) : p ∈ n.readTexts :=
  List.mem_append_left _ (List.mem_append_left _ (List.mem_append_left _ h))

theorem mem_readTexts_plan (hstep : step ∈ n.plan) (h : p ∈ step.names) : p ∈ n.readTexts :=
  List.mem_append_left _ (List.mem_append_left _
    (List.mem_append_right _ (List.mem_flatMap.mpr ⟨step, hstep, h⟩)))

theorem mem_readTexts_declarator (hstep : step ∈ n.declaratorSteps .here) (h : p ∈ step.names) :
    p ∈ n.readTexts :=
  List.mem_append_left _ (List.mem_append_right _ (List.mem_flatMap.mpr ⟨step, hstep, h⟩))

theorem mem_readTexts_parameter (h : p ∈ ((n.child? "parameters").map parameterNames).getD []) :
    p ∈ n.readTexts :=
  List.mem_append_right _ h

theorem construct_of_isIdentifier (h : n.isIdentifier = true) : n.construct = .identifier := by
  rw [construct, eq_of_beq h]
  rfl

end

end Node

/-! ## steps of an edited plan -/

def Action.edit (e : Edit) : Action → Action
  | .none => .none
  | .visit part scope => .visit (part.edit e) scope
  | .caseConstant name scope => .caseConstant (name.edit e) scope
  | .localClass declaration scope => .localClass (declaration.edit e) scope
  | .anonymousClass creation body scope => .anonymousClass (creation.edit e) (body.edit e) scope

def Progress.edit (e : Edit) (p : Progress) : Progress :=
  { p with action := p.action.edit e }

/-- the texts of some nodes are kept -/
def SameTexts (e : Edit) (u u' : SourceUnit) (nodes : List Node) : Prop :=
  ∀ n ∈ nodes, u'.text (n.edit e) = u.text n

namespace SameTexts

variable {e : Edit} {u u' : SourceUnit} {nodes : List Node}

theorem subset {others : List Node} (h : SameTexts e u u' nodes) (hsub : others ⊆ nodes) :
    SameTexts e u u' others :=
  fun n hn => h n (hsub hn)

theorem mapM (h : SameTexts e u u' nodes) : (nodes.map (Node.edit e)).mapM u'.text = nodes.mapM u.text := by
  induction nodes with
  | nil => rfl
  | cons n nodes ih =>
    rw [List.map_cons, List.mapM_cons, List.mapM_cons, h n List.mem_cons_self,
      ih (h.subset (List.subset_cons_self n nodes))]

theorem declareNodes (h : SameTexts e u u' nodes) (s : Scopes) (scope : ScopeId) :
    s.declareNodes u' scope (nodes.map (Node.edit e)) = s.declareNodes u scope nodes := by
  rw [Scopes.declareNodes, h.mapM, Scopes.declareNodes]

theorem childDeclaring (h : SameTexts e u u' nodes) (s : Scopes) (parent : ScopeId) (label : String) :
    s.childDeclaring u' parent label (nodes.map (Node.edit e)) = s.childDeclaring u parent label nodes := by
  simp only [Scopes.childDeclaring, h.declareNodes]

theorem locate {place : Place} (h : SameTexts e u u' place.names) (here inner : ScopeId) (s : Scopes) :
    (place.edit e).locate u' here inner s = place.locate u here inner s := by
  induction place with
  | here => rfl
  | inner => rfl
  | fresh below label names ih =>
    rw [Place.edit, Place.locate, ih (h.subset (List.subset_append_left _ _)), Place.locate]
    have hnames : SameTexts e u u' names := h.subset (List.subset_append_right _ _)
    simp only [hnames.childDeclaring]

theorem perform (h : SameTexts e u u' step.names) (here inner : ScopeId) (s : Scopes) :
    (step.edit e).perform u' here inner s = (step.perform u here inner s).map (Progress.edit e) := by
  cases step with
  | enter label names =>
    have hnames : SameTexts e u u' names := h
    rw [Step.edit, Step.perform, hnames.childDeclaring, Step.perform]
    cases s.childDeclaring u here label names <;> rfl
  | declare name place =>
    have hname : SameTexts e u u' [name] := h.subset (by simp [Step.names])
    have hplace : SameTexts e u u' place.names := h.subset (List.subset_cons_self _ _)
    have hdeclare := fun (s : Scopes) scope => hname.declareNodes s scope
    simp only [List.map_cons, List.map_nil] at hdeclare
    rw [Step.edit, Step.perform, hplace.locate, Step.perform]
    cases place.locate u here inner s with
    | error => rfl
    | ok found =>
      show (found.2.declareNodes u' found.1 [name.edit e] >>= _) =
        (found.2.declareNodes u found.1 [name] >>= _).map _
      rw [hdeclare]
      cases found.2.declareNodes u found.1 [name] <;> rfl
  | visit part place =>
    have hplace : SameTexts e u u' place.names := h
    rw [Step.edit, Step.perform, hplace.locate, Step.perform]
    cases place.locate u here inner s <;> rfl
  | caseConstant name => rfl
  | localClass declaration => rfl
  | anonymousClass creation body => rfl

end SameTexts

/-! ## tables whose walks follow each other -/

structure Following (e : Edit) (S : List MethodId) (t t' : Table) where
  /-- the nodes that walks come to -/
  inTree : Node → Prop
  /-- the second walk may meet a fault where the first reads a text that it does not use -/
  faults : Prop
  /-- the second walk finds a use wherever the first finds one -/
  faithful : Prop
  restates : t.Restates e t'
  adds : Table.AddsStatic S t t'
  child : ∀ n c, inTree n → c ∈ n.children → inTree c
  body : ∀ c n, (t.decl c).body = some n → inTree n
  method : ∀ m n, (t.method m).node = some n → inTree n
  texts : ∀ n, inTree n → SameTexts e t.source t'.source n.readTexts
  readable : faults ∨ ∀ n text, inTree n → t.source.text n = .ok text →
    ∃ text', t'.source.text (n.edit e) = .ok text'
  captures : faithful → ∀ m c, t'.capturesInstance m c = t.capturesInstance m c
  callees : faithful → ∀ m ∈ S,
    (t.method m).isNonOverridable = true ∧ (t.method m).isConstructor = false

namespace Following

variable {e : Edit} {S : List MethodId} {t t' : Table} (K : Following e S t t') {α β : Type}

def state (_ : Following e S t t') (a b : WalkState) : Prop :=
  b.scopes = a.scopes ∧ b.edges = a.edges.filter fun m => decide (m ∉ S)

/-- how the results of the two walks belong together -/
def Results (R : α → β → Prop) :
    EStateM.Result Halt WalkState α → EStateM.Result Halt WalkState β → Prop
  | .ok x a, .ok y b => R x y ∧ K.state a b
  | .ok _ _, .error (.fault _) _ => K.faults
  | .ok _ _, .error (.access _) _ => False
  | .error (.access _) _, .ok _ _ => ¬ K.faithful
  | .error _ _, _ => True

def Follows (R : α → β → Prop) (x : Walk α) (y : Walk β) : Prop :=
  ∀ a b, K.state a b → K.Results R (x a) (y b)

/-- of walks that give no value -/
abbrev Runs (x y : Walk Unit) : Prop :=
  K.Follows (fun _ _ => True) x y

variable {K} {R : α → β → Prop} {x : Walk α}

theorem follows_pure {x : α} {y : β} (h : R x y) : K.Follows R (pure x) (pure y) :=
  fun _ _ hst => ⟨h, hst⟩

theorem Follows.bind {γ δ : Type} {Q : γ → δ → Prop} {y : Walk β} {f : α → Walk γ} {g : β → Walk δ}
    (h : K.Follows R x y) (hnext : ∀ p q, R p q → K.Follows Q (f p) (g q)) :
    K.Follows Q (x >>= f) (y >>= g) := by
  intro a b hst
  have hfirst := h a b hst
  cases hx : x a with
  | error halt a₁ =>
    rw [Run.bind_of_error hx]
    cases halt with
    | fault => trivial
    | access =>
      cases hy : y b with
      | ok q b₁ =>
        rw [hx, hy] at hfirst
        rw [Run.bind_of_ok hy]
        cases g q b₁ with
        | ok => exact hfirst
        | error => trivial
      | error =>
        rw [Run.bind_of_error hy]
        trivial
  | ok p a₁ =>
    rw [hx] at hfirst
    rw [Run.bind_of_ok hx]
    cases hy : y b with
    | ok q b₁ =>
      rw [hy] at hfirst
      rw [Run.bind_of_ok hy]
      exact hnext p q hfirst.1 a₁ b₁ hfirst.2
    | error halt b₁ =>
      rw [hy] at hfirst
      rw [Run.bind_of_error hy]
      cases halt with
      | access => exact hfirst.elim
      | fault =>
        cases f p a₁ with
        | ok => exact hfirst
        | error halt => cases halt <;> trivial

theorem Follows.andThen {x y : Walk Unit} {Q : α → β → Prop} {f : Walk α} {g : Walk β} (h : K.Runs x y)
    (hnext : K.Follows Q f g) : K.Follows Q (x >>= fun _ => f) (y >>= fun _ => g) :=
  h.bind fun _ _ _ => hnext

theorem Follows.bindEq {γ δ : Type} {Q : γ → δ → Prop} {y : Walk α} {f : α → Walk γ} {g : α → Walk δ}
    (h : K.Follows Eq x y) (hnext : ∀ p, K.Follows Q (f p) (g p)) : K.Follows Q (x >>= f) (y >>= g) := by
  refine h.bind fun p q hpq => ?_
  rw [← hpq]
  exact hnext p

theorem runs_forM {xs : List α} {ys : List β} {r : α → β} (hys : ys = xs.map r) {f : α → Walk Unit}
    {g : β → Walk Unit} (h : ∀ x ∈ xs, K.Runs (f x) (g (r x))) : K.Runs (xs.forM f) (ys.forM g) := by
  subst hys
  induction xs with
  | nil => exact follows_pure trivial
  | cons x xs ih =>
    exact (h x List.mem_cons_self).andThen (ih fun y hy => h y (List.mem_cons_of_mem _ hy))

theorem follows_ite {p : Prop} [Decidable p] {x' : Walk α} {y y' : Walk β} (hyes : K.Follows R x y)
    (hno : K.Follows R x' y') : K.Follows R (if p then x else x') (if p then y else y') := by
  split
  · exact hyes
  · exact hno

/-! ## uses of the instance -/

/-- a walk that does not come to its end -/
def Stops (x : Walk α) : Prop :=
  ∀ a v a', x a ≠ .ok v a'

theorem follows_of_stops {y : Walk β} (h : Stops x) (h' : K.faithful → Stops y) : K.Follows R x y := by
  intro a b _
  cases hx : x a with
  | ok v a' => exact absurd hx (h a v a')
  | error halt a' =>
    cases halt with
    | fault => trivial
    | access =>
      cases hy : y b with
      | ok v b' => exact fun hfaithful => h' hfaithful b v b' hy
      | error => trivial

theorem stops_note (t : Table) (m : MethodId) (reason : Reason) (n : Node) :
    Stops ((t.subject m).note reason n) :=
  fun _ _ _ h => by cases h

theorem stops_bind {f : α → Walk β} (h : ∀ v, Stops (f v)) : Stops (x >>= f) := by
  intro a v a' hok
  obtain ⟨p, a₁, _, hnext⟩ := Run.of_bind_ok hok
  exact h p a₁ v a' hnext

theorem follows_note {R : Unit → Unit → Prop} {m : MethodId} (reason reason' : Reason) (n n' : Node) :
    K.Follows R ((t.subject m).note reason n) ((t'.subject m).note reason' n') :=
  follows_of_stops (stops_note t m reason n) fun _ => stops_note t' m reason' n'

theorem follows_bind_note {γ : Type} {R : Unit → Unit → Prop} {m : MethodId} {y : Walk γ}
    (reason : α → Reason) (reason' : γ → Reason) (n n' : Node) :
    K.Follows R (x >>= fun v => (t.subject m).note (reason v) n)
      (y >>= fun v => (t'.subject m).note (reason' v) n') :=
  follows_of_stops (stops_bind fun v => stops_note t m (reason v) n)
    fun _ => stops_bind fun v => stops_note t' m (reason' v) n'

/-! ## steps that look -/

section
variable {m : MethodId} {n : Node}

theorem follows_lift (x : Except Fault α) : K.Follows Eq (Subject.lift x) (Subject.lift x) := by
  intro a b hst
  cases x with
  | ok v => exact ⟨rfl, hst⟩
  | error => trivial

theorem follows_text (h : t'.source.text (n.edit e) = t.source.text n) :
    K.Follows Eq ((t.subject m).text n) ((t'.subject m).text (n.edit e)) := by
  rw [Subject.text, Subject.text]
  show K.Follows Eq _ (Subject.lift (t'.source.text (n.edit e)))
  rw [h]
  exact follows_lift _

theorem follows_optionalText {n : Option Node} (h : SameTexts e t.source t'.source n.toList) :
    K.Follows Eq ((t.subject m).optionalText n)
      ((t'.subject m).optionalText (n.map (Node.edit e))) := by
  cases n with
  | none => exact follows_lift _
  | some n => exact follows_text (h n List.mem_cons_self)

theorem follows_unusedText (hn : K.inTree n) :
    K.Follows (fun _ _ => True) ((t.subject m).text n) ((t'.subject m).text (n.edit e)) := by
  intro a b hst
  rw [Subject.text, Subject.text]
  cases hx : t.source.text n with
  | error => trivial
  | ok text =>
    cases hy : t'.source.text (n.edit e) with
    | ok text' => exact ⟨trivial, hst⟩
    | error fault =>
      rcases K.readable with hfaults | hreadable
      · exact hfaults
      · obtain ⟨text', htext⟩ := hreadable n text hn hx
        rw [hy] at htext
        cases htext

theorem follows_innermostClass (sc : ScopeId) :
    K.Follows Eq (Subject.innermostClass sc) (Subject.innermostClass sc) :=
  fun _ _ hst => ⟨by rw [hst.1], hst⟩

theorem follows_resolveName (sc : ScopeId) (name : String) :
    K.Follows Eq ((t.subject m).resolveName sc name) ((t'.subject m).resolveName sc name) :=
  fun _ _ hst => ⟨by rw [K.restates.resolveName, hst.1], hst⟩

theorem follows_qualifiedClass {n : Option Node} (sc : ScopeId)
    (h : SameTexts e t.source t'.source n.toList) :
    K.Follows Eq ((t.subject m).qualifiedClass n sc)
      ((t'.subject m).qualifiedClass (n.map (Node.edit e)) sc) :=
  (follows_optionalText h).bindEq fun _ _ _ hst => ⟨by rw [K.restates.resolveTypeText, hst.1], hst⟩

theorem follows_capturedClass (sc : ScopeId) (written : String) :
    K.Follows (fun p q => (p = none → q = none) ∧ (K.faithful → q = p))
      ((t.subject m).capturedClass sc written) ((t'.subject m).capturedClass sc written) := by
  refine fun a b hst => ⟨⟨fun hbefore => ?_, fun hfaithful => ?_⟩, hst⟩
  · rw [K.restates.resolveTypeText, hst.1]
    rw [Option.filter_eq_none_iff] at hbefore ⊢
    exact fun c hc hcaptures => hbefore c hc (K.adds.capturesInstance K.restates hcaptures)
  · rw [K.restates.resolveTypeText, hst.1]
    exact congrArg (Option.filter · _) (funext (K.captures hfaithful m))

theorem follows_receiverOf {object : Node} (sc : ScopeId) (hobject : K.inTree object)
    (hmem : n.child? "object" = some object) (hqualifier : SameTexts e t.source t'.source n.qualifier) :
    K.Follows Eq ((t.subject m).receiverOf object n sc)
      ((t'.subject m).receiverOf (object.edit e) (n.edit e) sc) := by
  have hsuper : ((n.edit e).namedBut "object").any (·.kind == "super") =
      (n.namedBut "object").any (·.kind == "super") := by
    rw [Node.namedBut_edit]
    exact Node.any_map_edit e (fun c => by rw [Node.kind_edit]) _
  have hthis : Subject.isThisAccess (object.edit e) = Subject.isThisAccess object := by
    rw [Subject.isThisAccess, Node.kind_edit, Node.childKind_edit, Subject.isThisAccess]
  unfold Subject.receiverOf
  rw [hsuper, hthis, Node.kind_edit, Node.child?_edit]
  refine follows_ite ((follows_innermostClass sc).bindEq fun _ => follows_pure rfl) ?_
  refine follows_ite ((follows_innermostClass sc).bindEq fun _ => follows_pure rfl) ?_
  by_cases hs : (n.namedBut "object").any (·.kind == "super") = true
  · rw [if_pos hs, if_pos hs]
    have hown : SameTexts e t.source t'.source (some object).toList := by
      rw [Node.qualifier, hs, Bool.or_true, if_pos rfl, hmem] at hqualifier
      exact hqualifier
    exact (follows_qualifiedClass sc hown).bindEq fun _ => follows_pure rfl
  rw [if_neg hs, if_neg hs]
  by_cases ht : Subject.isThisAccess object = true
  · rw [if_pos ht, if_pos ht]
    have hown : SameTexts e t.source t'.source (object.child? "object").toList := by
      have hfield := (Bool.and_eq_true _ _ ▸ ht).2
      refine (K.texts object hobject).subset fun p hp => Node.mem_readTexts_own ?_
      rw [Node.ownTexts, construct_of_isThisAccess ht]
      simp only [Node.qualifier, hfield, Bool.true_or, if_true]
      exact hp
    exact (follows_qualifiedClass sc hown).bindEq fun _ => follows_pure rfl
  · rw [if_neg ht, if_neg ht]
    exact follows_pure rfl

/-! ## steps that record -/

theorem runs_noteInherited (c : Option ClassId) (reason reason' : String → Reason) (n n' : Node) :
    K.Runs ((t.subject m).noteInherited c reason n) ((t'.subject m).noteInherited c reason' n') := by
  cases c with
  | none => exact follows_pure trivial
  | some c =>
    simp only [Subject.noteInherited, K.restates.isForeign]
    exact follows_ite (follows_note _ _ n n') (follows_pure trivial)

theorem runs_checkReference (ref : Reference) (name : String) (n n' : Node) :
    K.Runs ((t.subject m).checkReference ref name n) ((t'.subject m).checkReference ref name n') := by
  cases ref with
  | type => exact follows_pure trivial
  | unresolved | localName | staticImport | methods => exact runs_noteInherited _ _ _ n n'
  | field field via shadow =>
    simp only [Subject.checkReference, K.restates.isForeign]
    exact (runs_noteInherited _ _ _ n n').andThen
      (follows_ite (follows_note _ _ n n') (follows_pure trivial))

theorem runs_visitName (sc : ScopeId) (h : t'.source.text (n.edit e) = t.source.text n) :
    K.Runs ((t.subject m).visitName n sc) ((t'.subject m).visitName (n.edit e) sc) :=
  (follows_text h).bindEq fun name =>
    (follows_resolveName sc name).bindEq fun ref => runs_checkReference ref name n _

theorem runs_visitCaseConstant (sc : ScopeId) (h : t'.source.text (n.edit e) = t.source.text n) :
    K.Runs ((t.subject m).visitCaseConstant n sc) ((t'.subject m).visitCaseConstant (n.edit e) sc) := by
  refine (follows_text h).bindEq fun name => (follows_resolveName sc name).bindEq fun ref => ?_
  cases ref with
  | unresolved => exact follows_pure trivial
  | type | localName | staticImport | methods | field => exact runs_checkReference _ name n _

theorem runs_visitReceiver (n n' : Node) (sc : ScopeId) :
    K.Runs ((t.subject m).visitReceiver n sc) ((t'.subject m).visitReceiver n' sc) := by
  refine (follows_innermostClass sc).bindEq fun c => ?_
  rw [K.restates.isForeign]
  exact follows_ite (follows_note _ _ n n') (follows_pure trivial)

theorem runs_addEdge {callee : MethodId} (h : callee ∉ S) :
    K.Runs (Subject.addEdge callee) (Subject.addEdge callee) := by
  rintro a b ⟨hscopes, hedges⟩
  refine ⟨trivial, hscopes, ?_⟩
  have hcontains : (a.edges.filter fun m => decide (m ∉ S)).contains callee =
      a.edges.contains callee := by
    rw [Bool.eq_iff_iff, List.contains_iff_mem, List.contains_iff_mem, List.mem_filter,
      decide_eq_true h, eq_self, and_true]
  show (if b.edges.contains callee then b.edges else b.edges ++ [callee]) =
    (if a.edges.contains callee then a.edges else a.edges ++ [callee]).filter _
  rw [hedges, hcontains]
  split
  · rfl
  · rw [List.filter_append, List.filter_cons, decide_eq_true h, if_pos rfl, List.filter_nil]

/-- a call of a method that became static is no edge any more -/
theorem runs_addEdge_pure {callee : MethodId} (h : callee ∈ S) :
    K.Runs (Subject.addEdge callee) (pure ()) := by
  rintro a b ⟨hscopes, hedges⟩
  refine ⟨trivial, hscopes, ?_⟩
  show b.edges = (if a.edges.contains callee then a.edges else a.edges ++ [callee]).filter _
  rw [hedges]
  split
  · rfl
  · rw [List.filter_append, List.filter_cons, decide_eq_false (not_not_intro h),
      if_neg Bool.false_ne_true, List.filter_nil, List.append_nil]

theorem runs_checkCallee (callee : MethodId) {x y : Walk Unit} (hx : Stops x) (hy : Stops y) :
    K.Runs
      (if (t.method callee).isStatic then pure ()
        else if (t.method callee).isNonOverridable && !(t.method callee).isConstructor then
          Subject.addEdge callee
        else x)
      (if (t'.method callee).isStatic then pure ()
        else if (t'.method callee).isNonOverridable && !(t'.method callee).isConstructor then
          Subject.addEdge callee
        else y) := by
  rw [K.adds.isNonOverridable, K.restates.isConstructor]
  by_cases hstatic : (t.method callee).isStatic = true
  · rw [if_pos hstatic, if_pos (K.adds.staysStatic hstatic)]
    exact follows_pure trivial
  rw [if_neg hstatic]
  by_cases hedge : ((t.method callee).isNonOverridable && !(t.method callee).isConstructor) = true
  · rw [if_pos hedge, if_pos hedge]
    have hbecomes := K.adds.isStatic callee
      (Table.declares_of_isNonOverridable (Bool.and_eq_true _ _ ▸ hedge).1)
    rw [Bool.eq_false_iff.mpr hstatic, Bool.false_or] at hbecomes
    by_cases hcallee : callee ∈ S
    · rw [hbecomes, decide_eq_true hcallee, if_pos rfl]
      exact runs_addEdge_pure hcallee
    · rw [hbecomes, decide_eq_false hcallee, if_neg Bool.false_ne_true]
      exact runs_addEdge hcallee
  · rw [if_neg hedge, if_neg hedge]
    refine follows_of_stops hx fun hfaithful => ?_
    -- such a method is none of those that became static
    have hcallee : callee ∉ S := by
      intro hmem
      obtain ⟨hoverridable, hconstructor⟩ := K.callees hfaithful callee hmem
      exact hedge (by rw [hoverridable, hconstructor]; rfl)
    rw [K.adds.isStatic_of_not_mem K.restates hcallee, if_neg hstatic]
    exact hy

theorem runs_checkCall (ref : Reference) (name : String) (n n' : Node) :
    K.Runs ((t.subject m).checkCall ref name n) ((t'.subject m).checkCall ref name n') := by
  cases ref with
  | unresolved =>
    exact runs_noteInherited _ (fun _ => .callsInherited name) (fun _ => .callsInherited name) n n'
  | staticImport => exact runs_noteInherited _ _ _ n n'
  | localName | field | type => exact follows_note _ _ n n'
  | methods overloads via shadow =>
    unfold Subject.checkCall
    simp only [K.restates.isForeign]
    refine follows_ite ((runs_noteInherited _ _ _ n n').andThen ?_) (follows_pure trivial)
    exact runs_forM (List.map_id overloads).symm fun callee _ =>
      runs_checkCallee callee (stops_note t m _ n) (stops_note t' m _ n')

end

/-! ## the ways on -/

structure Onwards (K : Following e S t t') (go go' : Subject.Onward) : Prop where
  code : ∀ (n : Node) (sc : ScopeId), K.inTree n →
    K.Runs (go (.code n sc)) (go' (.code (n.edit e) sc))
  body : ∀ c : ClassId, K.Runs (go (.body c)) (go' (.body c))

/-- what is left to do after a step concerns the tree, and names that keep their text -/
def Covers (K : Following e S t t') : Action → Prop
  | .visit part _ => K.inTree part
  | .caseConstant name _ => t'.source.text (name.edit e) = t.source.text name
  | .none | .localClass _ _ | .anonymousClass _ _ _ => True

theorem covers_of_perform (hwithin : step.Within K.inTree)
    (hnames : SameTexts e t.source t'.source step.names) {here inner : ScopeId} {s : Scopes}
    {done : Progress} (h : step.perform t.source here inner s = .ok done) : K.Covers done.action := by
  cases Step.performs h with
  | visit => exact hwithin
  | caseConstant => exact hnames _ List.mem_cons_self
  | enter | declare | localClass | anonymousClass => trivial

theorem sameTexts_own {n : Node} (hn : K.inTree n) : SameTexts e t.source t'.source n.ownTexts :=
  (K.texts n hn).subset fun _ => Node.mem_readTexts_own

theorem inTree_of_mem_memberNodes {body member : Node} (hbody : K.inTree body)
    (hmember : member ∈ Table.memberNodes body) : K.inTree member := by
  obtain ⟨c, hc, hmember⟩ := List.mem_flatMap.mp hmember
  have hin := K.child body c hbody (Node.mem_of_mem_namedChildren hc)
  split at hmember
  · exact K.child c member hin (Node.mem_of_mem_namedChildren hmember)
  · cases List.mem_singleton.mp hmember
    exact hin

section
variable {m : MethodId} {go go' : Subject.Onward}

theorem runs_setScopes (scopes : Scopes) : K.Runs (Subject.setScopes scopes) (Subject.setScopes scopes) :=
  fun _ _ hst => ⟨trivial, rfl, hst.2⟩

theorem follows_openScope (parent : ScopeId) (label : String) :
    K.Follows Eq (Subject.openScope parent label) (Subject.openScope parent label) := by
  rintro a b ⟨hscopes, hedges⟩
  refine ⟨?_, ?_, hedges⟩
  · show (a.scopes.child parent label).1 = (b.scopes.child parent label).1
    rw [hscopes]
  · show (b.scopes.child parent label).2 = (a.scopes.child parent label).2
    rw [hscopes]

theorem follows_lift_scopes {γ δ : Type} {Q : γ → δ → Prop} {f : Scopes → Except Fault α}
    {g : Scopes → Except Fault β} {r : α → β} {next : α → Walk γ} {next' : β → Walk δ}
    (h : ∀ s, g s = (f s).map r) (hnext : ∀ s p, f s = .ok p → K.Follows Q (next p) (next' (r p))) :
    K.Follows Q (get >>= fun st => Subject.lift (f st.scopes) >>= next)
      (get >>= fun st => Subject.lift (g st.scopes) >>= next') := by
  intro a b hst
  show K.Results Q ((Subject.lift (f a.scopes) >>= next) a) ((Subject.lift (g b.scopes) >>= next') b)
  rw [h, hst.1]
  cases hx : f a.scopes with
  | error fault => trivial
  | ok p => exact hnext a.scopes p hx a b hst

theorem runs_declareLocal (c : ClassId) (sc : ScopeId) :
    K.Runs ((t.subject m).declareLocal c sc) ((t'.subject m).declareLocal c sc) := by
  dsimp only [Subject.declareLocal, Table.subject]
  rw [K.restates.properName]
  cases (t.decl c).properName with
  | none => exact follows_pure trivial
  | some name =>
    rintro a b ⟨hscopes, hedges⟩
    refine ⟨trivial, ?_, hedges⟩
    show b.scopes.declareType sc name c = a.scopes.declareType sc name c
    rw [hscopes]

section
variable (hgo : K.Onwards go go')

variable {n member : Node}
include hgo

theorem runs_visitFieldAccess (sc : ScopeId) (hn : K.inTree n) (hconstruct : n.construct = .fieldAccess) :
    K.Runs ((t.subject m).visitFieldAccess go n sc)
      ((t'.subject m).visitFieldAccess go' (n.edit e) sc) := by
  have hqualifier : SameTexts e t.source t'.source n.qualifier := by
    have hown := sameTexts_own hn
    rwa [Node.ownTexts, hconstruct] at hown
  unfold Subject.visitFieldAccess
  rw [Node.child?_edit, Node.child?_edit]
  cases hobject : n.child? "object" with
  | none => exact follows_note _ _ n _
  | some object =>
    have hin := K.child n object hn (Node.mem_of_child? hobject)
    cases hfield : n.child? "field" with
    | none => exact follows_note _ _ n _
    | some field =>
      simp only [Option.map_some, Node.kind_edit]
      by_cases hthis : (field.kind == "this") = true
      · rw [if_pos hthis, if_pos hthis]
        have hown : SameTexts e t.source t'.source (some object).toList := by
          have hkind : (n.childKind "field" == "this") = true := by
            rw [Node.childKind, hfield]
            exact hthis
          rw [Node.qualifier, hkind, Bool.true_or, if_pos rfl, hobject] at hqualifier
          exact hqualifier
        refine (follows_qualifiedClass sc hown).bindEq fun c => ?_
        rw [K.restates.isForeign]
        exact follows_ite (follows_bind_note _ _ n _) (follows_pure trivial)
      · rw [if_neg hthis, if_neg hthis]
        refine (follows_receiverOf sc hin hobject hqualifier).bindEq fun receiver => ?_
        rcases receiver with _ | ⟨receiver, _ | c⟩
        · exact hgo.code object sc hin
        · exact follows_bind_note _ _ n _
        · simp only [K.restates.isForeign]
          exact follows_ite (follows_bind_note _ _ n _)
            (follows_pure trivial)

theorem runs_visitCallee (sc : ScopeId) (name : String) (hn : K.inTree n)
    (hqualifier : SameTexts e t.source t'.source n.qualifier) :
    K.Runs ((t.subject m).visitCallee go n sc name)
      ((t'.subject m).visitCallee go' (n.edit e) sc name) := by
  unfold Subject.visitCallee
  rw [Node.child?_edit, Node.child?_edit, Node.argumentCount_edit]
  cases hobject : n.child? "object" with
  | none =>
    intro a b hst
    show K.Results _ _ ((t'.subject m).checkCall (t'.resolveMethod b.scopes sc name _) name _ b)
    rw [K.restates.resolveMethod, hst.1]
    exact runs_checkCall _ name n _ a b hst
  | some object =>
    have hin := K.child n object hn (Node.mem_of_child? hobject)
    refine (follows_receiverOf sc hin hobject hqualifier).bindEq fun receiver => ?_
    rcases receiver with _ | ⟨receiver, _ | c⟩
    · exact hgo.code object sc hin
    · exact follows_note _ _ n _
    · simp only [K.restates.isForeign]
      exact follows_ite (follows_bind_note _ _ n _) (follows_pure trivial)

theorem runs_visitInvocation (sc : ScopeId) (hn : K.inTree n) (hconstruct : n.construct = .invocation) :
    K.Runs ((t.subject m).visitInvocation go n sc) ((t'.subject m).visitInvocation go' (n.edit e) sc) := by
  have hown : SameTexts e t.source t'.source ((n.child? "name").toList ++ n.qualifier) := by
    have hown := sameTexts_own hn
    rwa [Node.ownTexts, hconstruct] at hown
  unfold Subject.visitInvocation
  rw [Node.child?_edit, Node.child?_edit]
  refine (follows_optionalText (hown.subset (List.subset_append_left _ _))).bindEq fun name => ?_
  refine (runs_visitCallee hgo sc name hn (hown.subset (List.subset_append_right _ _))).andThen ?_
  cases harguments : n.child? "arguments" with
  | none => exact follows_pure trivial
  | some arguments => exact hgo.code arguments sc (K.child n arguments hn (Node.mem_of_child? harguments))

theorem runs_visitConstructorCall (sc : ScopeId) (hn : K.inTree n) :
    K.Runs (Subject.visitConstructorCall go n sc) (Subject.visitConstructorCall go' (n.edit e) sc) := by
  refine runs_forM (r := Node.edit e) ?_ fun c hc =>
    hgo.code c sc (K.child n c hn (Node.mem_of_mem_namedChildren (List.mem_filter.mp hc).1))
  rw [Node.namedChildren_edit]
  exact Node.filter_map_edit e (fun c => by rw [Node.construct_edit, Node.kind_edit]) _

theorem runs_visitAction {action : Action} (h : K.Covers action) :
    K.Runs ((t.subject m).visitAction go action) ((t'.subject m).visitAction go' (action.edit e)) := by
  cases action with
  | none => exact follows_pure trivial
  | visit part sc => exact hgo.code part sc h
  | caseConstant name sc => exact runs_visitCaseConstant sc h
  | localClass declaration sc =>
    show K.Runs ((t.subject m).visitLocalClass go declaration sc)
      ((t'.subject m).visitLocalClass go' (declaration.edit e) sc)
    unfold Subject.visitLocalClass
    rw [K.restates.classFor]
    cases t.classFor declaration with
    | none => exact follows_note _ _ _ _
    | some c => exact (runs_declareLocal c sc).andThen (hgo.body c)
  | anonymousClass creation body sc =>
    show K.Runs ((t.subject m).visitAnonymousClass go creation)
      ((t'.subject m).visitAnonymousClass go' (creation.edit e))
    unfold Subject.visitAnonymousClass
    rw [K.restates.classFor]
    cases t.classFor creation with
    | none => exact follows_note _ _ _ _
    | some c => exact hgo.body c

theorem runs_visitSteps (here inner : ScopeId) {steps steps' : List Step}
    (hsteps' : steps' = steps.map (Step.edit e))
    (hsteps : ∀ step ∈ steps, step.Within K.inTree ∧ SameTexts e t.source t'.source step.names) :
    K.Runs ((t.subject m).visitSteps go here inner steps)
      ((t'.subject m).visitSteps go' here inner steps') := by
  subst hsteps'
  induction steps generalizing inner with
  | nil => exact follows_pure trivial
  | cons step steps ih =>
    obtain ⟨⟨hwithin, hnames⟩, hothers⟩ := List.forall_mem_cons.mp hsteps
    refine follows_lift_scopes (r := Progress.edit e) (hnames.perform here inner) fun s done hdone => ?_
    have haction := runs_visitAction (m := m) hgo (covers_of_perform hwithin hnames hdone)
    exact (runs_setScopes done.scopes).andThen (haction.andThen (ih done.inner hothers))

theorem runs_visitOuterInstance (sc : ScopeId) (hn : K.inTree n) (hconstruct : n.construct = .creation) :
    K.Runs ((t.subject m).visitOuterInstance go n sc)
      ((t'.subject m).visitOuterInstance go' (n.edit e) sc) := by
  have hown : SameTexts e t.source t'.source (n.child? "type").toList := by
    have hown := sameTexts_own hn
    rwa [Node.ownTexts, hconstruct] at hown
  have hqualifier : (n.edit e).namedChildren.find? Subject.isQualifier =
      (n.namedChildren.find? Subject.isQualifier).map (Node.edit e) := by
    rw [Node.namedChildren_edit]
    exact Node.find?_map_edit e (fun c => by simp only [Subject.isQualifier, Node.kind_edit]) _
  unfold Subject.visitOuterInstance
  rw [hqualifier, Node.child?_edit]
  cases hfind : n.namedChildren.find? Subject.isQualifier with
  | some qualifier =>
    simp only [Option.map_some, Node.kind_edit]
    have hin := K.child n qualifier hn
      (Node.mem_of_mem_namedChildren (List.mem_of_find?_eq_some hfind))
    refine follows_ite ((follows_innermostClass sc).bindEq fun c => ?_) (hgo.code qualifier sc hin)
    rw [K.restates.isForeign]
    exact follows_ite (follows_note _ _ n _) (follows_pure trivial)
  | none =>
    refine (follows_optionalText hown).bindEq fun written => ?_
    refine (follows_capturedClass sc written).bind fun p q hpq => ?_
    cases p with
    | some c =>
      refine follows_of_stops (stops_note t m _ n) fun hfaithful => ?_
      rw [hpq.2 hfaithful]
      exact stops_note t' m _ _
    | none =>
      rw [hpq.1 rfl]
      exact follows_pure trivial

theorem runs_visitCreation (sc : ScopeId) (hn : K.inTree n) (hconstruct : n.construct = .creation) :
    K.Runs ((t.subject m).visitCreation go n sc) ((t'.subject m).visitCreation go' (n.edit e) sc) := by
  refine (runs_visitOuterInstance hgo sc hn hconstruct).andThen ?_
  refine runs_visitSteps hgo sc sc ?_ fun step hstep => ⟨?_, fun p hp => ?_⟩
  · rw [Node.namedChildren_edit, Node.eraseP_map_edit e fun c => by
      simp only [Subject.isQualifier, Node.kind_edit]]
    exact Node.creationSteps_edit e n _
  · exact (Node.of_creationSteps hconstruct (fun c hc => List.mem_of_mem_eraseP hc) step hstep).within K.child hn
  · obtain ⟨c, _, rfl⟩ := List.mem_map.mp hstep
    split at hp <;> cases hp

theorem runs_visitMethodReference (sc : ScopeId) (hn : K.inTree n)
    (hconstruct : n.construct = .methodReference) : K.Runs ((t.subject m).visitMethodReference go n sc)
      ((t'.subject m).visitMethodReference go' (n.edit e) sc) := by
  have hown : SameTexts e t.source t'.source n.referencedClass := by
    have hown := sameTexts_own hn
    rwa [Node.ownTexts, hconstruct] at hown
  unfold Subject.visitMethodReference
  rw [Node.namedChildren_edit, Node.any_kind_edit e (by decide)]
  cases hnamed : n.namedChildren with
  | nil => exact follows_note _ _ n _
  | cons target others =>
    have hin : K.inTree target := by
      refine K.child n target hn (Node.mem_of_mem_namedChildren ?_)
      rw [hnamed]
      exact List.mem_cons_self
    have hthis : Subject.isThisAccess (target.edit e) = Subject.isThisAccess target := by
      rw [Subject.isThisAccess, Node.kind_edit, Node.childKind_edit, Subject.isThisAccess]
    have hsuper : (others.map (Node.edit e)).any (·.kind == "super") =
        others.any (·.kind == "super") :=
      Node.any_map_edit e (fun c => by rw [Node.kind_edit]) _
    simp only [List.map_cons, Node.construct_edit, hthis, hsuper, Node.kind_edit,
      Node.isIdentifier_edit]
    refine follows_ite (runs_visitReceiver target _ sc) ?_
    by_cases ht : Subject.isThisAccess target = true
    · rw [if_pos ht, if_pos ht]
      exact runs_visitFieldAccess hgo sc hin (construct_of_isThisAccess ht)
    rw [if_neg ht, if_neg ht]
    by_cases hs : others.any (·.kind == "super") = true
    · rw [if_pos hs, if_pos hs]
      have htarget : SameTexts e t.source t'.source (some target).toList := by
        simp only [Node.referencedClass, hnamed, hs, Bool.true_or, if_true] at hown
        exact hown
      refine (follows_qualifiedClass sc htarget).bindEq fun c => ?_
      rw [K.restates.isForeign]
      exact follows_ite (follows_bind_note _ _ n _) (follows_pure trivial)
    rw [if_neg hs, if_neg hs]
    refine follows_ite ?_ (hgo.code target sc hin)
    by_cases hnew : n.children.any (·.kind == "new") = true
    · simp only [if_pos hnew]
      have htarget : t'.source.text (target.edit e) = t.source.text target := by
        simp only [Node.referencedClass, hnamed, hnew, Bool.or_true, if_true] at hown
        exact hown target List.mem_cons_self
      refine (follows_text htarget).bindEq fun written => ?_
      refine (follows_capturedClass sc written).bind fun p q hpq => ?_
      cases p with
      | some c =>
        refine follows_of_stops (stops_note t m _ n) fun hfaithful => ?_
        rw [hpq.2 hfaithful]
        exact stops_note t' m _ _
      | none =>
        rw [hpq.1 rfl]
        exact follows_pure trivial
    · simp only [if_neg hnew]
      refine (follows_unusedText hin).bind fun _ _ _ => follows_ite (follows_pure trivial) ?_
      by_cases hidentifier : target.isIdentifier = true
      · rw [if_pos hidentifier, if_pos hidentifier]
        refine runs_visitName sc (K.texts target hin target (Node.mem_readTexts_own ?_))
        rw [Node.ownTexts, Node.construct_of_isIdentifier hidentifier]
        exact List.mem_cons_self
      · rw [if_neg hidentifier, if_neg hidentifier]
        exact hgo.code target sc hin

theorem runs_visitCode (sc : ScopeId) (hn : K.inTree n) :
    K.Runs ((t.subject m).visitCode go n sc) ((t'.subject m).visitCode go' (n.edit e) sc) := by
  have hplan : K.Runs ((t.subject m).visitSteps go sc sc n.plan)
      ((t'.subject m).visitSteps go' sc sc (n.edit e).plan) := by
    refine runs_visitSteps hgo sc sc (Node.plan_edit e n) fun step hstep => ⟨?_, ?_⟩
    · exact (n.of_plan step hstep).within K.child hn
    · exact (K.texts n hn).subset fun p hp => Node.mem_readTexts_plan hstep hp
  unfold Subject.visitCode
  rw [Node.isBroken_edit, Node.named_edit, Node.construct_edit]
  refine follows_ite (follows_note _ _ n _) (follows_ite (follows_pure trivial) ?_)
  split
  · exact follows_pure trivial
  · rename_i hconstruct
    refine runs_visitName sc (K.texts n hn n (Node.mem_readTexts_own ?_))
    rw [Node.ownTexts, hconstruct]
    exact List.mem_cons_self
  · exact runs_visitReceiver n _ sc
  · exact runs_visitFieldAccess hgo sc hn ‹_›
  · exact runs_visitInvocation hgo sc hn ‹_›
  · exact runs_visitMethodReference hgo sc hn ‹_›
  · exact runs_visitConstructorCall hgo sc hn
  · exact runs_visitCreation hgo sc hn ‹_›
  · exact follows_note _ _ n _
  · exact hplan

/-! ## bodies -/

theorem runs_visitInnerMethod (c : ClassId) (hmember : K.inTree member) :
    K.Runs ((t.subject m).visitInnerMethod go (t.decl c) member)
      ((t'.subject m).visitInnerMethod go' (t'.decl c) (member.edit e)) := by
  unfold Subject.visitInnerMethod
  rw [Node.child?_edit, Node.parameters_edit, Node.kind_edit, K.restates.scope, K.restates.fields]
  cases hbody : member.child? "body" with
  | none => exact follows_pure trivial
  | some body =>
    have hnames : SameTexts e t.source t'.source
        (((member.child? "parameters").map Node.parameterNames).getD []) :=
      (K.texts member hmember).subset fun p hp => Node.mem_readTexts_parameter hp
    let names := ((member.child? "parameters").map Node.parameterNames).getD []
    refine follows_lift_scopes (r := id)
      (f := fun s => s.childDeclaring t.source (t.decl c).scope "method" names)
      (g := fun s => s.childDeclaring t'.source (t.decl c).scope "method" (names.map (Node.edit e)))
      (fun s => ?_) fun s p _ => ?_
    · rw [hnames.childDeclaring, Except.map_id]
      rfl
    · exact (runs_setScopes _).andThen
        (hgo.code body p.1 (K.child member body hmember (Node.mem_of_child? hbody)))

theorem runs_visitConstantArguments (c : ClassId) (hmember : K.inTree member) :
    K.Runs (Subject.visitConstantArguments go (t.decl c) member)
      (Subject.visitConstantArguments go' (t'.decl c) (member.edit e)) := by
  unfold Subject.visitConstantArguments
  rw [Node.child?_edit, K.restates.scope]
  cases harguments : member.child? "arguments" with
  | none => exact follows_pure trivial
  | some arguments =>
    refine (follows_openScope _ _).bindEq fun scope => ?_
    exact hgo.code arguments scope (K.child member arguments hmember (Node.mem_of_child? harguments))

theorem runs_visitMember (c : ClassId) (hmember : K.inTree member) :
    K.Runs ((t.subject m).visitMember go (t.decl c) member)
      ((t'.subject m).visitMember go' (t'.decl c) (member.edit e)) := by
  have hnested : K.Runs ((t.classFor member).forM fun c => go (.body c))
      ((t'.classFor (member.edit e)).forM fun c => go' (.body c)) := by
    rw [K.restates.classFor]
    cases t.classFor member with
    | none => exact follows_pure trivial
    | some k => exact hgo.body k
  unfold Subject.visitMember
  rw [Node.kind_edit]
  split
  · rw [K.restates.scope]
    refine (follows_openScope _ _).bindEq fun scope => ?_
    refine runs_visitSteps hgo scope scope (Node.declaratorSteps_edit e member .here)
      fun step hstep => ⟨?_, ?_⟩
    · exact (Node.of_declaratorSteps _ step hstep).within K.child hmember
    · exact (K.texts member hmember).subset fun p hp => Node.mem_readTexts_declarator hstep hp
  · exact runs_visitInnerMethod hgo c hmember
  · rw [K.restates.scope]
    exact hgo.code member _ hmember
  · rw [K.restates.scope]
    exact runs_forM (Node.namedChildren_edit e member) fun part hpart =>
      hgo.code part _ (K.child member part hmember (Node.mem_of_mem_namedChildren hpart))
  · exact hnested
  · exact (runs_visitConstantArguments hgo c hmember).andThen hnested
  · exact follows_pure trivial

theorem runs_visitBody (c : ClassId) :
    K.Runs ((t.subject m).visitBody go c) ((t'.subject m).visitBody go' c) := by
  simp only [Subject.visitBody, K.restates.body]
  cases hbody : (t.decl c).body with
  | none => exact follows_pure trivial
  | some body =>
    exact runs_forM (Node.memberNodes_edit e body) fun member hmember =>
      runs_visitMember hgo c (inTree_of_mem_memberNodes (K.body c body hbody) hmember)

end

theorem onwards_walkRegion (depth : Nat) :
    K.Onwards ((t.subject m).walkRegion depth) ((t'.subject m).walkRegion depth) := by
  induction depth with
  | zero => exact ⟨fun _ _ _ _ _ _ => trivial, fun _ _ _ _ => trivial⟩
  | succ depth ih =>
    exact ⟨fun n sc hn => runs_visitCode ih sc hn, fun c => runs_visitBody ih c⟩

theorem runs_walkMethod {body : Node} (hbody : (t.method m).body = some body) :
    K.Runs ((t.subject m).walkMethod body) ((t'.subject m).walkMethod (body.edit e)) := by
  obtain ⟨node, hnode, hchild⟩ := Option.bind_eq_some_iff.mp hbody
  have hin := K.method m node hnode
  have hnames : SameTexts e t.source t'.source
      (((t.method m).parameters.map Node.parameterNames).getD []) := by
    refine (K.texts node hin).subset fun p hp => Node.mem_readTexts_parameter ?_
    rw [Method.parameters, hnode] at hp
    exact hp
  have hdepth : Subject.walkDepth t' = Subject.walkDepth t := by
    rw [Subject.walkDepth, K.restates.size, K.restates.height, Subject.walkDepth]
  unfold Subject.walkMethod
  simp only [K.restates.parameterNames, K.restates.scope, K.restates.methodName, hdepth]
  let label := s!"method_{(t.method m).name}"
  let names := ((t.method m).parameters.map Node.parameterNames).getD []
  refine follows_lift_scopes (r := id)
    (f := fun s => s.childDeclaring t.source (t.decl m.owner).scope label names)
    (g := fun s => s.childDeclaring t'.source (t.decl m.owner).scope label (names.map (Node.edit e)))
    (fun s => ?_) fun s p _ => ?_
  · rw [hnames.childDeclaring, Except.map_id]
    rfl
  · exact (runs_setScopes p.2).andThen ((onwards_walkRegion _).code body p.1
      (K.child node body hin (Node.mem_of_child? hchild)))

end

/-! ## verdicts -/

variable (K)

theorem classify {s s' : Scopes} {m : MethodId} {callees : List MethodId}
    (h : t.classify s m = .ok (.clear callees, s')) :
    t'.classify s m = .ok (.clear (callees.filter fun callee => decide (callee ∉ S)), s') ∨
      (K.faults ∧ ∃ fault, t'.classify s m = .error fault) := by
  obtain ⟨body, a, hbody, hx, rfl, rfl⟩ := Table.walk_of_clear h
  have hruns := runs_walkMethod (K := K) hbody { scopes := s } { scopes := s } ⟨rfl, rfl⟩
  rw [hx] at hruns
  rw [Table.classify, K.restates.methodBody, hbody]
  simp only [Option.map_some, EStateM.run]
  cases hy : Subject.walkMethod (t'.subject m) (body.edit e) { scopes := s } with
  | ok _ b =>
    rw [hy] at hruns
    obtain ⟨_, hscopes, hedges⟩ := hruns
    refine .inl ?_
    rw [Subject.conclude, hscopes, hedges]
  | error halt b =>
    rw [hy] at hruns
    cases halt with
    | access => exact hruns.elim
    | fault fault => exact .inr ⟨hruns, fault, rfl⟩

theorem classify_access (hfaithful : K.faithful) {s s' : Scopes} {m : MethodId} {finding : Finding}
    (h : t.classify s m = .ok (.access finding, s')) (callees : List MethodId) (s'' : Scopes) :
    t'.classify s m ≠ .ok (.clear callees, s'') := by
  intro hclear
  obtain ⟨_, b, hbody', hy, _⟩ := Table.walk_of_clear hclear
  rw [K.restates.methodBody] at hbody'
  obtain ⟨body, hbody, rfl⟩ := Option.map_eq_some_iff.mp hbody'
  have hruns := runs_walkMethod (K := K) hbody { scopes := s } { scopes := s } ⟨rfl, rfl⟩
  rw [hy] at hruns
  rw [Table.classify, hbody] at h
  cases hx : Subject.walkMethod (t.subject m) body { scopes := s } with
  | ok _ a =>
    simp only [EStateM.run, hx] at h
    cases h
  | error halt a =>
    rw [hx] at hruns
    simp only [EStateM.run, hx] at h
    cases halt with
    | access => exact hruns hfaithful
    | fault => cases h

end Following

end StaticPromotion
