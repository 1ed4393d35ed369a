import StaticPromotion.Declaration
import StaticPromotion.Syntax.SourceUnit

/-!
# The declaration table of a unit

* `Table`             every class-shaped declaration of a unit in the order of declaration, its package and imports, and the
                      scopes at the declarations;
* `Table.decl`, `Table.method`     a class or method by number;
* `Table.displayName`, `Table.qualifiedName`     their shown names;
* `Table.classFor`    the class that a node declares. Nodes are told apart by range and kind, and of several classes with
                      the same the last one counts;
* `Table.declaredWithin`    whether a class stands, at any depth, in the body of a method;
* `Table.hierarchy`   a class and its supertypes in the unit, breadth first, each once;
* `Table.findField`, `Table.findMethods`, `Table.findMemberType`    members, own and inherited. The first two also tell
                      whether a supertype outside the unit may declare the name.
-/

namespace StaticPromotion

structure Table where
  source : SourceUnit
  package : String := ""
  classes : Array ClassDecl := #[]
  topLevel : Registry ClassId := []
  /-- single-type imports: simple name and qualified name -/
  importedTypes : Registry String := []
  staticImports : List String := []
  scopes : Scopes := .initial
  /-- the node of each class, latest first -/
  declared : List (Node.Key × ClassId) := []

namespace Table

/-! ## classes and methods by number -/

def decl (t : Table) (c : ClassId) : ClassDecl :=
  t.classes.getD c default

def classIds (t : Table) : List ClassId :=
  List.range t.classes.size

def topLevelClasses (t : Table) : List ClassId :=
  t.classIds.filter fun c => (t.decl c).outer.isNone

/-- the classes declared directly inside a class: members, local and anonymous ones -/
def nestedClasses (t : Table) (c : ClassId) : List ClassId :=
  t.classIds.filter fun nested => (t.decl nested).outer == some c

def method (t : Table) (m : MethodId) : Method :=
  (t.decl m.owner).methods.getD m.index default

def methodIds (t : Table) (c : ClassId) : List MethodId :=
  (List.range (t.decl c).methods.size).map fun index => ⟨c, index⟩

def classFor (t : Table) (n : Node) : Option ClassId :=
  (t.declared.find? (·.1 == n.key)).map (·.2)

/-! ## names -/

def displayName (t : Table) (c : ClassId) : String :=
  dottedName ((c :: (t.decl c).outers).reverse.map fun k => ((t.decl k).name, (t.decl k).line))

def qualifiedName (t : Table) (m : MethodId) : String :=
  t.displayName m.owner ++ "." ++ (t.method m).name

/-! ## nesting -/

def declaredWithin (t : Table) (c : ClassId) (m : MethodId) : Bool :=
  (c :: (t.decl c).outers).any fun k => (t.decl k).enclosingMethod == some m

/-- an inner member class: making an instance of it captures one of the class around it -/
def requiresOuterInstance (t : Table) (c : ClassId) : Bool :=
  let d := t.decl c
  d.kind == .ordinary && !d.isStatic && !d.isLocal &&
    d.outer.any fun o => !(t.decl o).kind.isInterface

/-- whether `new` of a class, without a qualifier, captures an instance that the code of `m` stands in -/
def capturesInstance (t : Table) (m : MethodId) (c : ClassId) : Bool :=
  let d := t.decl c
  !t.declaredWithin c m &&
    (t.requiresOuterInstance c ||
      (d.isLocal && d.kind == .ordinary && !d.isStatic &&
        d.enclosingMethod.all fun enclosing => !(t.method enclosing).isStatic))

/-! ## inheritance -/

/-- visits in the order of the queue what is not visited yet; a visited element stays in the queue and is passed over -/
def breadthFirst (next : ClassId → List ClassId) (unseen queue : List ClassId) : List ClassId :=
  match _found : queue.find? unseen.contains with
  | none => []
  | some c => c :: breadthFirst next (unseen.erase c) (queue ++ next c)
termination_by unseen.length
decreasing_by
  have member : c ∈ unseen := List.contains_iff_mem.mp (List.find?_some _found)
  have shorter := List.length_erase_of_mem member
  have positive := List.length_pos_of_mem member
  omega

def hierarchy (t : Table) (c : ClassId) : List ClassId :=
  breadthFirst (fun k => (t.decl k).supertypes) t.classIds [c]

/-- the field, if the unit declares it; else whether a supertype outside may -/
def findField (t : Table) (c : ClassId) (name : String) : Option Field × Bool :=
  let line := t.hierarchy c
  match line.findSome? fun k => (t.decl k).fields.get? name with
  | some field => (some field, false)
  | none => (none, line.any fun k => (t.decl k).opaqueFields)

/-- the methods of a class with a name, constructors left out -/
def methodsNamed (t : Table) (c : ClassId) (name : String) : List MethodId :=
  (t.methodIds c).filter fun m => (t.method m).name == name && !(t.method m).isConstructor

/-- the methods with a name that the unit declares, and whether a supertype outside may declare more -/
def findMethods (t : Table) (c : ClassId) (name : String) : List MethodId × Bool :=
  let line := t.hierarchy c
  (line.flatMap fun k => t.methodsNamed k name, line.any fun k => (t.decl k).opaqueMethods)

def findMemberType (t : Table) (c : ClassId) (name : String) : Option ClassId :=
  (t.hierarchy c).findSome? fun k => (t.decl k).memberTypes.get? name

end Table

end StaticPromotion
