import StaticPromotion.Lookup
import StaticPromotion.Scoping

/-!
# Building the table of a unit

The first pass goes over the declarations in source order, and into code for the classes declared there. A class declared
in code is entered with a snapshot of the scopes at that point. The second pass links supertypes.

* `Build`            a step of the first pass: it extends the table, or meets a fault;
* `declareClass`, `declareAnonymous`   enter a class without its members;
* `indexRegion`      goes over a `Region`: some code, or the members of a class. `depth` bounds how far down it goes, and the
                     height of the tree is enough, as each region lies strictly below the one it is met in;
* `linkSupertypes`   finds the supertypes of a class among the classes of the unit. One that is not found makes the class
                     opaque, unless it is known to add no members;
* `Table.ofSource`   both passes.
-/

namespace StaticPromotion

abbrev Build := StateT Table (Except Fault)

/-- whose code it is -/
structure CodeOwner where
  cls : ClassId
  method : Option MethodId := none

namespace Table

/-! ## steps of the build -/

def buildText (n : Node) : Build String := do
  (← get).source.text n

def buildLine (n : Node) : Build Nat := do
  return (← get).source.line n

def modifyClass (c : ClassId) (change : ClassDecl → ClassDecl) : Build Unit :=
  modify fun t => { t with classes := t.classes.modify c change }

def setScopes (s : Scopes) : Build Unit :=
  modify fun t => { t with scopes := s }

/-- opens a scope and gives its number -/
def openScope (make : Scopes → ScopeId × Scopes) : Build ScopeId := do
  let (scope, s) := make (← get).scopes
  setScopes s
  return scope

/-- adds a class to the table and opens its scope -/
def register (node : Node) (d : ClassDecl) (parent : ScopeId) : Build ClassId := do
  let c := (← get).classes.size
  modify fun t => { t with classes := t.classes.push d, declared := (node.key, c) :: t.declared }
  let shown := (← get).displayName c
  let scope ← openScope fun s => s.enterClass parent c shown
  modifyClass c fun d => { d with scope }
  return c

def addField (c : ClassId) (field : Field) : Build Unit :=
  modifyClass c fun d => { d with fields := d.fields.put field.name field }

def addMethod (c : ClassId) (m : Method) : Build MethodId := do
  let index := ((← get).decl c).methods.size
  modifyClass c fun d => { d with methods := d.methods.push m }
  return ⟨c, index⟩

/-! ## classes without their members -/

/-- the methods that the language adds to a class -/
def implicitMethods : ClassKind → Array Method
  | .enumeration =>
    #[{ name := "values", modifiers := ["public", "static"] },
      { name := "valueOf", modifiers := ["public", "static"], paramTypes := ["String"] }]
  | _ => #[]

/-- an enum or record inherits methods that the unit does not show -/
def inheritsUnseen : ClassKind → Bool
  | .enumeration | .record => true
  | _ => false

/-- a component is a field and a method without parameters -/
def declareComponent (c : ClassId) (param : Node) : Build Unit := do
  if let some nameNode := param.child? "name" then
    let name ← buildText nameNode
    let line ← buildLine param
    addField c { name, owner := c, isStatic := false, line }
    let _ ← addMethod c { name, modifiers := ["public"], line }

def declareComponents (c : ClassId) (node : Node) : Build Unit :=
  (((node.child? "parameters").map Node.namedChildren).getD []).forM (declareComponent c)

def outersOf (t : Table) (outer : Option ClassId) : List ClassId :=
  match outer with
  | none => []
  | some o => o :: (t.decl o).outers

/-- the clauses of a declaration that name interfaces -/
def interfaceNodes (node : Node) : List Node :=
  (node.namedChildren.filter fun c =>
    c.kind == "super_interfaces" || c.kind == "extends_interfaces").flatMap fun clause =>
      clause.namedChildren.flatMap Node.namedChildren

/-- a class declaration without the components of a record -/
def enterClass (node : Node) (kind : ClassKind) (outer : Option CodeOwner) (isLocal : Bool)
    (parent : ScopeId) : Build ClassId := do
  let t ← get
  let words := node.modifiers.1
  let inInterface := outer.any fun o => (t.decl o.cls).kind.isInterface
  let name ← (node.child? "name").mapM buildText
  let superclass ← ((node.child? "superclass").bind (·.namedChildren.head?)).mapM buildText
  let interfaces ← (interfaceNodes node).mapM buildText
  register node
    { name, kind, superclass, interfaces, isLocal
      body := node.child? "body"
      outers := t.outersOf (outer.map (·.cls))
      enclosingMethod := outer.bind (·.method)
      isStatic := outer.isSome && (words.contains "static" || kind != .ordinary || inInterface)
      line := ← buildLine node
      methods := implicitMethods kind
      opaqueMethods := inheritsUnseen kind }
    parent

def declareClass (node : Node) (kind : ClassKind) (outer : Option CodeOwner) (isLocal : Bool)
    (parent : ScopeId) : Build ClassId := do
  let c ← enterClass node kind outer isLocal parent
  if kind == .record then declareComponents c node
  return c

/-- a class body of a creation or of an enum constant; of the latter the supertype is known -/
def declareAnonymous (node body : Node) (outer : CodeOwner) (parent : ScopeId)
    (supertype : Option ClassId := none) : Build ClassId := do
  let t ← get
  let written := if supertype.isSome then none else node.child? "type"
  let superclass ← written.mapM buildText
  register node
    { kind := .anonymous
      body := some body
      outers := t.outersOf (some outer.cls)
      enclosingMethod := outer.method
      isLocal := true
      line := ← buildLine node
      superclass
      supertypes := supertype.toList }
    parent

/-! ## methods -/

/-- the type of a parameter as a dotted name; the second component tells a variable number of arguments -/
def parameterType? (param : Node) : Option (Option Node × Bool) :=
  if param.kind == "formal_parameter" then some (param.child? "type", false)
  else if param.kind == "spread_parameter" then
    some (param.namedChildren.find? fun c =>
      c.kind != "modifiers" && c.kind != "variable_declarator", true)
  else none

/-- a method without a name of its own has that of its class -/
def methodName (c : ClassId) (node : Node) : Build String := do
  match node.child? "name" with
  | some n => buildText n
  | none => return ((← get).decl c).name.getD ""

def makeMethod (c : ClassId) (node : Node) : Build Method := do
  let t ← get
  let types := (((node.child? "parameters").map Node.namedChildren).getD []).filterMap parameterType?
  let paramTypes ← types.mapM fun type => do
    return TypeName.clean (← t.source.optionalText type.1)
  let name ← methodName c node
  return {
    name, paramTypes
    modifiers := node.modifiers.1
    isConstructor := node.kind != "method_declaration"
    isVarargs := types.any (·.2)
    node := some node
    line := ← buildLine node }

/-! ## regions -/

inductive Region where
  | code (owner : CodeOwner) (node : Node) (scope : ScopeId)
  | members (cls : ClassId) (body : Node)

/-- the members of a class body; those after the constants of an enum stand one level deeper -/
def memberNodes (body : Node) : List Node :=
  body.namedChildren.flatMap fun c =>
    if c.kind == "enum_body_declarations" then c.namedChildren else [c]

inductive MemberKind where
  | field
  | method
  | nested (kind : ClassKind)
  | constant
  | block
  | staticBlock
  | other
deriving DecidableEq

def MemberKind.ofKind (kind : String) : MemberKind :=
  match kind with
  | "field_declaration" | "constant_declaration" => .field
  | "method_declaration" | "constructor_declaration" | "compact_constructor_declaration" => .method
  | "enum_constant" => .constant
  | "block" => .block
  | "static_initializer" => .staticBlock
  | _ =>
    match ClassKind.ofKind? kind with
    | some flavour => .nested flavour
    | none => .other

/-- the scope of a method body, with its parameters -/
def openMethodScope (node : Node) (label : String) (classScope : ScopeId) : Build ScopeId := do
  let t ← get
  let names := ((node.child? "parameters").map Node.parameterNames).getD []
  let (scope, s) ← t.scopes.childDeclaring t.source classScope label names
  setScopes s
  return scope

/-- the names of the components that a compact constructor has for parameters -/
def componentNames (d : ClassDecl) : List String :=
  (d.fields.map (·.2)).filterMap fun f => if f.isStatic then none else some f.name

/-- a field with the name that a declarator or constant has, if it has one -/
def declareField (c : ClassId) (isStatic : Bool) (node : Node) : Build Unit := do
  if let some nameNode := node.child? "name" then
    let name ← buildText nameNode
    addField c { name, owner := c, isStatic, line := ← buildLine node }

/-- code that stands in a class but in none of its methods -/
def indexOwnCode (index : Region → Build Unit) (c : ClassId) (label : String) :
    Option Node → Build Unit
  | none => pure ()
  | some code => do
    let classScope := ((← get).decl c).scope
    let scope ← openScope fun s => s.child classScope label
    index (.code ⟨c, none⟩ code scope)

def indexDeclarator (index : Region → Build Unit) (c : ClassId) (isStatic : Bool)
    (declarator : Node) : Build Unit := do
  declareField c isStatic declarator
  indexOwnCode index c "initializer" (declarator.child? "value")

def indexFields (index : Region → Build Unit) (c : ClassId) (member : Node) : Build Unit := do
  let d := (← get).decl c
  let isStatic := member.modifiers.1.contains "static" || member.kind == "constant_declaration" ||
    d.kind.isInterface
  (member.childrenAt "declarator").forM (indexDeclarator index c isStatic)

def indexMethod (index : Region → Build Unit) (c : ClassId) (member : Node) : Build Unit := do
  let m ← makeMethod c member
  let id ← addMethod c m
  if let some body := m.body then
    let d := (← get).decl c
    let scope ← openMethodScope member s!"method_{m.name}" d.scope
    let components :=
      if member.kind == "compact_constructor_declaration" then componentNames d else []
    modify fun t => { t with scopes := t.scopes.declareAll scope components }
    index (.code ⟨c, some id⟩ body scope)

def indexConstantBody (index : Region → Build Unit) (c : ClassId) (member : Node) :
    Build Unit := do
  if let some body := member.child? "body" then
    let classScope := ((← get).decl c).scope
    let nested ← declareAnonymous member body ⟨c, none⟩ classScope (some c)
    index (.members nested body)

def indexConstant (index : Region → Build Unit) (c : ClassId) (member : Node) : Build Unit := do
  declareField c true member
  indexOwnCode index c "enum_constant" (member.child? "arguments")
  indexConstantBody index c member

/-- goes over the members of a class that has just been entered -/
def indexBody (index : Region → Build Unit) (c : ClassId) : Build Unit := do
  if let some body := ((← get).decl c).body then
    index (.members c body)

def indexMember (index : Region → Build Unit) (c : ClassId) (member : Node) : Build Unit := do
  let scope := ((← get).decl c).scope
  match MemberKind.ofKind member.kind with
  | .field => indexFields index c member
  | .method => indexMethod index c member
  | .constant => indexConstant index c member
  | .block | .staticBlock => index (.code ⟨c, none⟩ member scope)
  | .nested kind =>
    let nested ← declareClass member kind (some ⟨c, none⟩) false scope
    indexBody index nested
    if let some name := ((← get).decl nested).properName then
      modifyClass c fun d => { d with memberTypes := d.memberTypes.put name nested }
  | .other => pure ()

/-- a class declared in code sees what is in scope there -/
def indexAction (index : Region → Build Unit) (owner : CodeOwner) : Action → Build Unit
  | .none | .caseConstant _ _ => pure ()
  | .visit part scope => index (.code owner part scope)
  | .localClass declaration scope => do
    let captured ← openScope fun s => s.snapshot scope
    if let some kind := ClassKind.ofKind? declaration.kind then
      let c ← declareClass declaration kind (some owner) true captured
      indexBody index c
      if let some name := ((← get).decl c).properName then
        modify fun t => { t with scopes := t.scopes.declareType scope name c }
  | .anonymousClass creation body scope => do
    let captured ← openScope fun s => s.snapshot scope
    let c ← declareAnonymous creation body owner captured
    index (.members c body)

def indexSteps (index : Region → Build Unit) (owner : CodeOwner) (scope : ScopeId) :
    ScopeId → List Step → Build Unit
  | _, [] => pure ()
  | inner, step :: rest => do
    let t ← get
    let done ← step.perform t.source scope inner t.scopes
    setScopes done.scopes
    indexAction index owner done.action
    indexSteps index owner scope done.inner rest

def indexRegion : Nat → Region → Build Unit
  | 0, _ => throw .nestedWithoutEnd
  | depth + 1, .code owner node scope => indexSteps (indexRegion depth) owner scope scope node.plan
  | depth + 1, .members c body => (memberNodes body).forM (indexMember (indexRegion depth) c)

/-! ## the unit -/

/-- a name, perhaps a dotted one -/
def isName (n : Node) : Bool :=
  n.kind == "identifier" || n.kind == "scoped_identifier"

/-- an import of all names at once says nothing about any of them -/
def importTarget? (node : Node) : Option Node :=
  if node.namedChildren.any (·.kind == "asterisk") then none else node.namedChildren.find? isName

def recordImport (node : Node) : Build Unit := do
  if let some target := importTarget? node then
    let qualified ← buildText target
    let simple := TypeName.simple qualified
    if node.children.any (·.kind == "static") then
      modify fun t => { t with staticImports := t.staticImports.insert simple }
    else modify fun t => { t with importedTypes := t.importedTypes.put simple qualified }

def recordPackage (node : Node) : Build Unit :=
  (node.namedChildren.filter isName).forM fun part => do
    let package ← buildText part
    modify fun t => { t with package }

def indexTopLevel (depth : Nat) (node : Node) : Build Unit := do
  if node.kind == "package_declaration" then recordPackage node
  else if node.kind == "import_declaration" then recordImport node
  else if let some kind := ClassKind.ofKind? node.kind then
    let c ← declareClass node kind none false Scopes.rootId
    indexBody (indexRegion depth) c
    if let some name := ((← get).decl c).properName then
      modify fun t => { t with topLevel := t.topLevel.put name c }

/-! ## supertypes -/

/-- the superclass that every class has anyway -/
def rootSuperclasses : List String :=
  ["Object", "java.lang.Object"]

/-- interfaces without members -/
def markerInterfaces : List String :=
  ["Serializable", "java.io.Serializable", "Cloneable", "java.lang.Cloneable"]

/-- finds one supertype, as written, among the classes of the unit; else the class changes as `unseen` says, unless the
supertype is harmless -/
def linkSupertype (c : ClassId) (harmless : List String) (unseen : ClassDecl → ClassDecl)
    (t : Table) (written : String) : Table :=
  let context := ((t.scopes.frame (t.decl c).scope).ancestors.head?).getD Scopes.rootId
  match (t.resolveTypeText t.scopes context written).bind (·.cls) with
  | some found =>
    { t with
      classes := t.classes.modify c fun d => { d with supertypes := d.supertypes ++ [found] } }
  | none =>
    if harmless.contains (TypeName.clean written) then t
    else { t with classes := t.classes.modify c unseen }

def linkSupertypes (t : Table) (c : ClassId) : Table :=
  let superclasses := ((t.decl c).superclass.filter (· != "")).toList
  let t := superclasses.foldl
    (linkSupertype c rootSuperclasses fun d => { d with opaqueMethods := true, opaqueFields := true }) t
  (t.decl c).interfaces.foldl
    (linkSupertype c markerInterfaces fun d => { d with opaqueMethods := true }) t

/-- the table before supertypes are linked -/
def indexed (source : SourceUnit) : Except Fault Table := do
  let depth := source.root.height
  let ((), t) ← (source.root.namedChildren.forM (indexTopLevel depth)).run { source }
  return t

def ofSource (source : SourceUnit) : Except Fault Table := do
  let t ← indexed source
  return t.classIds.foldl linkSupertypes t

end Table

end StaticPromotion
