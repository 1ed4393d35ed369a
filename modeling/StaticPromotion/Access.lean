import StaticPromotion.Table.Indexing
import StaticPromotion.Verdict

/-!
# Uses of an instance in a method body

The body of a method is walked in evaluation order. What is found is either a disqualifying use of the instance, at which
the walk stops, or an edge: a call, on the implicit receiver, of a method that no subclass can replace.

Only the first segment of a qualified access is evaluated; the rest belongs to another object. `this` and `super`, bare or
qualified, denote an instance around the code, unless it is one of a class declared inside the body: such classes have
instances of their own, and a class is foreign to the body otherwise. The code of classes declared inside is walked too.

* `Subject`      the method under inspection. An exhaustive inspection records every use instead of stopping at the first;
* `Walk`         a step of the walk: it changes scopes and edges, and may halt;
* `visitCode`    one node, by cases on its construct; `visitBody` the code of a class declared inside;
* `walkRegion`   ties the two together. `depth` bounds the nesting, and `walkDepth` is more than any walk needs that does not
                 enter a class from within itself;
* `Table.classify`   the verdict on a method.
-/

namespace StaticPromotion

structure Subject where
  table : Table
  method : MethodId
  exhaustive : Bool := false

structure WalkState where
  scopes : Scopes
  /-- the edges found, in order -/
  edges : List MethodId := []
  /-- what an exhaustive inspection has recorded, in order -/
  findings : List Finding := []

inductive Halt where
  | access (finding : Finding)
  | fault (fault : Fault)

abbrev Walk := EStateM Halt WalkState

namespace Subject

/-! ## steps of the walk -/

def lift {α : Type} : Except Fault α → Walk α
  | .ok a => pure a
  | .error e => throw (.fault e)

def text (s : Subject) (n : Node) : Walk String :=
  lift (s.table.source.text n)

def optionalText (s : Subject) (n : Option Node) : Walk String :=
  lift (s.table.source.optionalText n)

/-- a disqualifying use at a node -/
def note (s : Subject) (reason : Reason) (n : Node) : Walk Unit :=
  let finding : Finding := ⟨reason, s.table.source.line n⟩
  if s.exhaustive then modify fun st => { st with findings := st.findings ++ [finding] }
  else throw (.access finding)

theorem note_eq_throw {s : Subject} (h : s.exhaustive = false) (reason : Reason) (n : Node) :
    s.note reason n = throw (.access ⟨reason, s.table.source.line n⟩) := by
  simp only [note, h]
  rfl

def addEdge (m : MethodId) : Walk Unit :=
  modify fun st => { st with edges := if st.edges.contains m then st.edges else st.edges ++ [m] }

def setScopes (scopes : Scopes) : Walk Unit :=
  modify fun st => { st with scopes }

def openScope (parent : ScopeId) (label : String) : Walk ScopeId := do
  let (scope, scopes) := (← get).scopes.child parent label
  setScopes scopes
  return scope

/-- not declared inside the body; without a class there is nothing inside -/
def isForeign (s : Subject) (c : Option ClassId) : Bool :=
  !c.any fun c => s.table.declaredWithin c s.method

def innermostClass (scope : ScopeId) : Walk (Option ClassId) := do
  return (← get).scopes.innermostClass scope

/-! ## names -/

def resolveName (s : Subject) (scope : ScopeId) (name : String) : Walk Reference := do
  return s.table.resolveName (← get).scopes scope name

/-- notes that a foreign class, if there is one, may inherit a name -/
def noteInherited (s : Subject) (c : Option ClassId) (reason : String → Reason) (n : Node) :
    Walk Unit :=
  match c with
  | none => pure ()
  | some c => if s.isForeign (some c) then s.note (reason (s.table.displayName c)) n else pure ()

def checkReference (s : Subject) (ref : Reference) (name : String) (n : Node) : Walk Unit := do
  match ref with
  | .type _ => pure ()
  | .unresolved _ atClass => s.noteInherited atClass (.mayBeInherited name) n
  | .localName _ shadow | .staticImport _ shadow | .methods _ _ shadow =>
    s.noteInherited shadow (.mayBeInherited name) n
  | .field field via shadow =>
    s.noteInherited shadow (.mayBeInherited name) n
    if !field.isStatic && s.isForeign (some via) then s.note (.readsField name) n

def visitName (s : Subject) (n : Node) (scope : ScopeId) : Walk Unit := do
  let name ← s.text n
  s.checkReference (← s.resolveName scope name) name n

/-- a bare name after `case`: an unknown one is a constant of the selector's type -/
def visitCaseConstant (s : Subject) (n : Node) (scope : ScopeId) : Walk Unit := do
  let name ← s.text n
  match ← s.resolveName scope name with
  | .unresolved _ _ => pure ()
  | ref => s.checkReference ref name n

/-! ## receivers -/

inductive Receiver where
  | this
  | super
deriving DecidableEq

def Receiver.word : Receiver → String
  | .this => "this"
  | .super => "super"

def visitReceiver (s : Subject) (n : Node) (scope : ScopeId) : Walk Unit := do
  if s.isForeign (← innermostClass scope) then s.note (.uses n.kind) n

/-- the class in a qualified `this` or `super` -/
def qualifiedClass (s : Subject) (n : Option Node) (scope : ScopeId) : Walk (Option ClassId) := do
  let written ← s.optionalText n
  return (s.table.resolveTypeText (← get).scopes scope written).bind (·.cls)

def isThisAccess (n : Node) : Bool :=
  n.kind == "field_access" && n.childKind "field" == "this"

/-- whether the object of an access is an instance around the code, and of which class; none for any other object -/
def receiverOf (s : Subject) (object : Node) (n : Node) (scope : ScopeId) :
    Walk (Option (Receiver × Option ClassId)) := do
  if object.kind == "this" then return some (.this, ← innermostClass scope)
  else if object.kind == "super" then return some (.super, ← innermostClass scope)
  else if (n.namedBut "object").any (·.kind == "super") then
    return some (.super, ← s.qualifiedClass (some object) scope)
  else if isThisAccess object then
    return some (.this, ← s.qualifiedClass (object.child? "object") scope)
  else return none

/-- a receiver as written -/
def receiverText (s : Subject) (object : Node) (receiver : Receiver) : Walk String := do
  let written ← s.text object
  if ["this", "super", "field_access"].contains object.kind then return written
  else return s!"{written}.{receiver.word}"

/-! ## regions -/

inductive CodeRegion where
  | code (node : Node) (scope : ScopeId)
  | body (cls : ClassId)

/-- the way on: into a part, or into a class -/
abbrev Onward := CodeRegion → Walk Unit

/-- code that cannot be told what it does; an exhaustive inspection goes on to its parts, in a scope of their own -/
def reject (s : Subject) (go : Onward) (reason : Reason) (n : Node) (scope : ScopeId) : Walk Unit := do
  s.note reason n
  let inner ← openScope scope Node.statementLabel
  n.namedChildren.forM fun c => go (.code c inner)

theorem reject_eq_note {s : Subject} (h : s.exhaustive = false) (go : Onward) (reason : Reason)
    (n : Node) (scope : ScopeId) : s.reject go reason n scope = s.note reason n := by
  simp only [reject, note_eq_throw h]
  rfl

def visitFieldAccess (s : Subject) (go : Onward) (n : Node) (scope : ScopeId) : Walk Unit := do
  match n.child? "object", n.child? "field" with
  | some object, some field =>
    if field.kind == "this" then
      if s.isForeign (← s.qualifiedClass (some object) scope) then s.note (.uses (← s.text n)) n
    else
      match ← s.receiverOf object n scope with
      | none => go (.code object scope)
      | some (_, none) => s.note (.unknownReceiver (← s.text n)) n
      | some (receiver, some c) =>
        if s.isForeign (some c) then s.note (.uses (← s.receiverText object receiver)) n
  | _, _ => s.reject go .malformedFieldAccess n scope

/-! ## calls -/

def checkCall (s : Subject) (ref : Reference) (name : String) (n : Node) : Walk Unit := do
  match ref with
  | .unresolved _ atClass => s.noteInherited atClass (fun _ => .callsInherited name) n
  | .staticImport _ shadow => s.noteInherited shadow (.mayBeInherited name) n
  | .methods overloads via shadow =>
    if s.isForeign (some via) then
      s.noteInherited shadow (.mayBeInherited name) n
      overloads.forM fun callee => do
        let m := s.table.method callee
        if m.isStatic then pure ()
        else if m.isNonOverridable && !m.isConstructor then addEdge callee
        else s.note (.callsInstanceMethod (s.table.qualifiedName callee)) n
  | .localName _ _ | .field _ _ _ | .type _ => s.note (.unresolvableCall name) n

/-- the object of a call, or the method that a call without one binds to -/
def visitCallee (s : Subject) (go : Onward) (n : Node) (scope : ScopeId) (name : String) :
    Walk Unit := do
  match n.child? "object" with
  | none =>
    let count := Node.argumentCount (n.child? "arguments")
    s.checkCall (s.table.resolveMethod (← get).scopes scope name count) name n
  | some object =>
    match ← s.receiverOf object n scope with
    | none => go (.code object scope)
    | some (_, none) => s.note (.unknownReceiverOfCall name) n
    | some (receiver, some c) =>
      if s.isForeign (some c) then
        s.note (.usesToCall (← s.receiverText object receiver) name) n

def visitInvocation (s : Subject) (go : Onward) (n : Node) (scope : ScopeId) : Walk Unit := do
  let name ← s.optionalText (n.child? "name")
  s.visitCallee go n scope name
  (n.child? "arguments").forM fun arguments => go (.code arguments scope)

/-- the call of another constructor: its own `this` or `super` is no use of the instance -/
def visitConstructorCall (go : Onward) (n : Node) (scope : ScopeId) : Walk Unit :=
  (n.namedChildren.filter fun c =>
    c.construct != .receiver && !isTypeKind c.kind).forM fun c => go (.code c scope)

/-! ## classes declared inside -/

/-- the name of a class declared by a statement, for the code after it -/
def declareLocal (s : Subject) (c : ClassId) (scope : ScopeId) : Walk Unit :=
  match (s.table.decl c).properName with
  | none => pure ()
  | some name => modify fun st => { st with scopes := st.scopes.declareType scope name c }

def visitLocalClass (s : Subject) (go : Onward) (declaration : Node) (scope : ScopeId) :
    Walk Unit := do
  match s.table.classFor declaration with
  | none => s.note .unindexedLocalClass declaration
  | some c =>
    s.declareLocal c scope
    go (.body c)

def visitAnonymousClass (s : Subject) (go : Onward) (creation : Node) : Walk Unit :=
  match s.table.classFor creation with
  | none => s.note .unindexedAnonymousClass creation
  | some c => go (.body c)

def visitAction (s : Subject) (go : Onward) : Action → Walk Unit
  | .none => pure ()
  | .visit part scope => go (.code part scope)
  | .caseConstant name scope => s.visitCaseConstant name scope
  | .localClass declaration scope => s.visitLocalClass go declaration scope
  | .anonymousClass creation _ _ => s.visitAnonymousClass go creation

def visitSteps (s : Subject) (go : Onward) (scope : ScopeId) : ScopeId → List Step → Walk Unit
  | _, [] => pure ()
  | inner, step :: rest => do
    let done ← lift (step.perform s.table.source scope inner (← get).scopes)
    setScopes done.scopes
    s.visitAction go done.action
    visitSteps s go scope done.inner rest

/-! ## creations and method references -/

/-- a class whose creation here would capture a foreign instance -/
def capturedClass (s : Subject) (scope : ScopeId) (written : String) : Walk (Option ClassId) := do
  let c := (s.table.resolveTypeText (← get).scopes scope written).bind (·.cls)
  return c.filter (s.table.capturesInstance s.method)

/-- the outer instance in front of a creation -/
def isQualifier (n : Node) : Bool :=
  !isTypeKind n.kind && n.kind != "argument_list" && n.kind != "class_body"

/-- the instance that an object is created in -/
def visitOuterInstance (s : Subject) (go : Onward) (n : Node) (scope : ScopeId) : Walk Unit := do
  match n.namedChildren.find? isQualifier with
  | some qualifier =>
    if qualifier.kind == "this" then
      if s.isForeign (← innermostClass scope) then s.note .createsWithThis n
    else go (.code qualifier scope)
  | none =>
    let written ← s.optionalText (n.child? "type")
    if let some c ← s.capturedClass scope written then
      s.note (.createsInner (s.table.displayName c)) n

def visitCreation (s : Subject) (go : Onward) (n : Node) (scope : ScopeId) : Walk Unit := do
  s.visitOuterInstance go n scope
  s.visitSteps go scope scope (n.creationSteps (n.namedChildren.eraseP isQualifier))

def visitMethodReference (s : Subject) (go : Onward) (n : Node) (scope : ScopeId) :
    Walk Unit := do
  match n.namedChildren with
  | [] => s.note .malformedMethodReference n
  | target :: others =>
    if target.construct == .receiver then s.visitReceiver target scope
    else if isThisAccess target then s.visitFieldAccess go target scope
    else if others.any (·.kind == "super") then
      if s.isForeign (← s.qualifiedClass (some target) scope) then s.note (.uses (← s.text n)) n
    else if isTypeKind target.kind ||
        ["identifier", "scoped_identifier", "field_access"].contains target.kind then
      let written ← s.text target
      if n.children.any (·.kind == "new") then
        if let some c ← s.capturedClass scope written then
          s.note (.referencesInnerConstructor (s.table.displayName c)) n
      else if isTypeKind target.kind then pure ()
      else if target.isIdentifier then s.visitName target scope
      else go (.code target scope)
    else go (.code target scope)

/-! ## the walk -/

def visitCode (s : Subject) (go : Onward) (n : Node) (scope : ScopeId) : Walk Unit :=
  if n.isBroken then s.reject go .unparsable n scope
  else if !n.named then pure ()
  else
    match n.construct with
    | .inert => pure ()
    | .identifier => s.visitName n scope
    | .receiver => s.visitReceiver n scope
    | .fieldAccess => s.visitFieldAccess go n scope
    | .invocation => s.visitInvocation go n scope
    | .methodReference => s.visitMethodReference go n scope
    | .constructorCall => visitConstructorCall go n scope
    | .creation => s.visitCreation go n scope
    | .unknown => s.reject go (.unrecognized n.kind) n scope
    | _ => s.visitSteps go scope scope n.plan

/-- a method of a class declared inside -/
def visitInnerMethod (s : Subject) (go : Onward) (d : ClassDecl) (member : Node) : Walk Unit := do
  if let some body := member.child? "body" then
    let names := ((member.child? "parameters").map Node.parameterNames).getD []
    let (scope, scopes) ←
      lift ((← get).scopes.childDeclaring s.table.source d.scope "method" names)
    let components :=
      if member.kind == "compact_constructor_declaration" then d.fields.map (·.1) else []
    setScopes (scopes.declareAll scope components)
    go (.code body scope)

/-- the arguments of an enum constant -/
def visitConstantArguments (go : Onward) (d : ClassDecl) (member : Node) : Walk Unit :=
  match member.child? "arguments" with
  | none => pure ()
  | some arguments => do
    let scope ← openScope d.scope "enum_constant"
    go (.code arguments scope)

def visitMember (s : Subject) (go : Onward) (d : ClassDecl) (member : Node) : Walk Unit := do
  match Table.MemberKind.ofKind member.kind with
  | .field =>
    let scope ← openScope d.scope "field"
    s.visitSteps go scope scope (member.declaratorSteps .here)
  | .method => s.visitInnerMethod go d member
  | .block => go (.code member d.scope)
  | .staticBlock => member.namedChildren.forM fun c => go (.code c d.scope)
  | .nested _ => (s.table.classFor member).forM fun c => go (.body c)
  | .constant =>
    visitConstantArguments go d member
    (s.table.classFor member).forM fun c => go (.body c)
  | .other => pure ()

def visitBody (s : Subject) (go : Onward) (c : ClassId) : Walk Unit :=
  let d := s.table.decl c
  ((d.body.map Table.memberNodes).getD []).forM (s.visitMember go d)

def walkRegion (s : Subject) : Nat → CodeRegion → Walk Unit
  | 0, _ => throw (.fault .nestedWithoutEnd)
  | depth + 1, .code n scope => s.visitCode (s.walkRegion depth) n scope
  | depth + 1, .body c => s.visitBody (s.walkRegion depth) c

/-- a walk goes down the tree, and starts anew in each class that it enters -/
def walkDepth (t : Table) : Nat :=
  (t.classes.size + 1) * (t.source.root.height + 2)

/-- opens the scope of the method and walks its body -/
def walkMethod (s : Subject) (body : Node) : Walk Unit := do
  let m := s.table.method s.method
  let names := (m.parameters.map Node.parameterNames).getD []
  let (scope, scopes) ← lift ((← get).scopes.childDeclaring s.table.source
    (s.table.decl s.method.owner).scope s!"method_{m.name}" names)
  setScopes scopes
  s.walkRegion (walkDepth s.table) (.code body scope)

/-! ## verdicts -/

/-- the verdict that the end of an inspection tells, and the scopes after it -/
def conclude : EStateM.Result Halt WalkState Unit → Except Fault (Verdict × Scopes)
  | .ok _ st => .ok (.clear st.edges, st.scopes)
  | .error (.access finding) st => .ok (.access finding, st.scopes)
  | .error (.fault fault) _ => .error fault

end Subject

/-- the verdict on a method, and the scopes after the inspection -/
def Table.classify (t : Table) (scopes : Scopes) (m : MethodId) :
    Except Fault (Verdict × Scopes) :=
  match (t.method m).body with
  | none => .ok (.access ⟨.noBody, (t.method m).line⟩, scopes)
  | some body =>
    Subject.conclude ((Subject.walkMethod { table := t, method := m } body).run { scopes })

end StaticPromotion
