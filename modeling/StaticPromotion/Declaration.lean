import StaticPromotion.Scope
import StaticPromotion.Syntax.Construct

/-!
# Declarations: fields, methods, classes

* `Field`, `Method`, `ClassDecl`   what a unit declares. A class-shaped declaration is any class, interface, enum, record,
                     annotation type, anonymous class or body of an enum constant;
* `MethodId`         a method by its class and its place among the methods of that class;
* `Method.accepts`   whether a call with so many arguments may bind to a method;
* `dottedName`       the name under which a nested declaration is shown: the names of the classes around it from the outermost
                     inwards. A class without a name is shown by its line.
-/

namespace StaticPromotion

structure MethodId where
  owner : ClassId
  index : Nat
deriving DecidableEq, Repr, Inhabited

/-! ## members -/

structure Field where
  name : String
  owner : ClassId
  isStatic : Bool
  line : Nat
deriving Repr, Inhabited

structure Method where
  name : String
  /-- the keyword modifiers, in source order -/
  modifiers : List String := []
  isConstructor : Bool := false
  paramTypes : List String := []
  /-- the last parameter takes any number of arguments -/
  isVarargs : Bool := false
  /-- the declaration; methods that the language adds have none -/
  node : Option Node := none
  line : Nat := 0
deriving Inhabited

namespace Method

def isStatic (m : Method) : Bool :=
  m.modifiers.contains "static"

/-- private and final methods cannot be replaced in a subclass -/
def isNonOverridable (m : Method) : Bool :=
  m.modifiers.contains "private" || m.modifiers.contains "final"

def arity (m : Method) : Nat :=
  m.paramTypes.length

def body (m : Method) : Option Node :=
  m.node.bind (·.child? "body")

def parameters (m : Method) : Option Node :=
  m.node.bind (·.child? "parameters")

def modifiersNode (m : Method) : Option Node :=
  m.node.bind (·.modifiers.2)

def accepts (m : Method) (arguments : Int) : Bool :=
  arguments == m.arity || (m.isVarargs && m.arity - 1 ≤ arguments)

end Method

/-! ## classes -/

structure ClassDecl where
  name : Option String := none
  kind : ClassKind := .ordinary
  body : Option Node := none
  /-- the classes around it, nearest first -/
  outers : List ClassId := []
  /-- the method whose body declares it -/
  enclosingMethod : Option MethodId := none
  isStatic : Bool := false
  /-- declared inside code -/
  isLocal : Bool := false
  line : Nat := 0
  /-- the superclass as written -/
  superclass : Option String := none
  /-- the interfaces as written -/
  interfaces : List String := []
  fields : Registry Field := []
  methods : Array Method := #[]
  memberTypes : Registry ClassId := []
  /-- the supertypes that the unit itself declares -/
  supertypes : List ClassId := []
  /-- a supertype outside the unit may add instance fields -/
  opaqueFields : Bool := false
  /-- a supertype outside the unit may add instance methods -/
  opaqueMethods : Bool := false
  /-- its class scope -/
  scope : ScopeId := Scopes.rootId
deriving Inhabited

namespace ClassDecl

def outer (c : ClassDecl) : Option ClassId :=
  c.outers.head?

def hasOpaqueSupertypes (c : ClassDecl) : Bool :=
  c.opaqueFields || c.opaqueMethods

/-- the name, unless it is absent or empty -/
def properName (c : ClassDecl) : Option String :=
  c.name.filter (· != "")

end ClassDecl

/-! ## shown names -/

def ownName (name : Option String) (line : Int) : String :=
  match name.filter (· != "") with
  | some name => name
  | none => s!"<anonymous@{line}>"

def dottedName (path : List (Option String × Int)) : String :=
  ".".intercalate (path.map fun part => ownName part.1 part.2)

end StaticPromotion
