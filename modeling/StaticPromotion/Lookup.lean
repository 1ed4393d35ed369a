import StaticPromotion.Table
import StaticPromotion.TypeName

/-!
# Name lookup

A simple name is looked up from the innermost scope outwards: variables of blocks, then fields of each class around, own
and inherited; after that types, and last the static imports. A class with a supertype outside the unit may inherit the
name unseen, so a reference found further out remembers the first such class that was passed (its shadow).

* `Reference`             what a name denotes;
* `Table.resolveName`     a name used as an expression;
* `Table.resolveMethod`   the name of a call without a receiver: the innermost class that has methods of that name decides,
                          and its overloads are narrowed by the number of arguments, unless none accepts it;
* `Table.resolveTypeName`, `Table.resolveTypeText`    a type by simple name, or as written in the source.
-/

namespace StaticPromotion

/-! ## references -/

/-- a type; `cls` is absent if the unit does not declare it -/
structure TypeRef where
  name : String
  cls : Option ClassId
deriving DecidableEq, Repr

inductive Reference where
  /-- a parameter or variable -/
  | localName (name : String) (shadow : Option ClassId)
  /-- a field, found among the members of `via` -/
  | field (field : Field) (via : ClassId) (shadow : Option ClassId)
  | type (ref : TypeRef)
  /-- the methods that a call may bind to, found among the members of `via` -/
  | methods (overloads : List MethodId) (via : ClassId) (shadow : Option ClassId)
  | staticImport (name : String) (shadow : Option ClassId)
  /-- not declared in the unit; `atClass` may inherit it -/
  | unresolved (name : String) (atClass : Option ClassId)
deriving Repr

/-! ## names known without a declaration -/

/-- the methods that every class inherits -/
def objectMethods : List String :=
  ["clone", "equals", "finalize", "getClass", "hashCode", "notify", "notifyAll", "toString", "wait"]

/-- types of the language's own package, known without an import -/
def platformTypes : List String :=
  ["Object", "String", "StringBuilder", "StringBuffer", "CharSequence", "Math", "StrictMath",
    "System", "Runtime", "Thread", "Class", "Boolean", "Byte", "Character", "Short", "Integer",
    "Long", "Float", "Double", "Number", "Void", "Enum", "Record", "Iterable", "Comparable",
    "Runnable", "AutoCloseable", "Throwable", "Exception", "Error", "RuntimeException",
    "IllegalArgumentException", "IllegalStateException", "NullPointerException",
    "UnsupportedOperationException", "IndexOutOfBoundsException", "ArithmeticException",
    "ClassCastException", "CloneNotSupportedException", "InterruptedException", "Override",
    "Deprecated", "SuppressWarnings", "FunctionalInterface", "SafeVarargs"]

namespace Table

/-! ## types -/

/-- the type that one level gives a name -/
def typeAtLevel (t : Table) (name : String) (level : Frame) : Option ClassId :=
  match level.types.get? name, level.cls with
  | some c, _ => some c
  | none, none => none
  | none, some c => if (t.decl c).name = some name then some c else t.findMemberType c name

def resolveTypeName (t : Table) (scopes : Scopes) (scope : ScopeId) (name : String) :
    Option TypeRef :=
  match (scopes.levels scope).findSome? (t.typeAtLevel name), t.topLevel.get? name with
  | some c, _ => some ⟨name, some c⟩
  | none, some c => some ⟨name, some c⟩
  | none, none =>
    if (t.importedTypes.get? name).isSome || platformTypes.contains name then some ⟨name, none⟩
    else none

/-- follows member types from a class; absent once one is not declared in the unit -/
def memberPath (t : Table) (start : Option ClassId) (path : List String) : Option ClassId :=
  path.foldl (fun current name => current.bind fun c => t.findMemberType c name) start

def resolveTypeText (t : Table) (scopes : Scopes) (scope : ScopeId) (text : String) :
    Option TypeRef :=
  let dotted := TypeName.clean text
  if dotted = "" then none
  else
    match TypeName.segments dotted with
    | [] => none
    | first :: rest =>
      match t.resolveTypeName scopes scope first with
      | some head => some ⟨dotted, t.memberPath head.cls rest⟩
      | none =>
        match rest.getLast? with
        | none => none
        | some last =>
          if ".".intercalate (first :: rest).dropLast = t.package then
            some ⟨dotted, t.topLevel.get? last⟩
          else some ⟨dotted, none⟩

/-! ## expressions -/

/-- the first opaque class passed is kept -/
def passing (shadow : Option ClassId) (c : ClassId) (isOpaque : Bool) : Option ClassId :=
  if isOpaque && shadow.isNone then some c else shadow

/-- looks through the levels; `outside` answers if none declares the name, given the shadow -/
def nameInLevels (t : Table) (name : String) (outside : Option ClassId → Reference) :
    Option ClassId → List Frame → Reference
  | shadow, [] => outside shadow
  | shadow, level :: rest =>
    match level.cls with
    | none =>
      if level.locals.contains name then .localName name shadow
      else nameInLevels t name outside shadow rest
    | some c =>
      match t.findField c name with
      | (some field, _) => .field field c shadow
      | (none, isOpaque) => nameInLevels t name outside (passing shadow c isOpaque) rest

/-- what a name denotes that no scope declares -/
def importedOrUnknown (t : Table) (name : String) (shadow : Option ClassId) : Reference :=
  if t.staticImports.contains name then .staticImport name shadow else .unresolved name shadow

def resolveName (t : Table) (scopes : Scopes) (scope : ScopeId) (name : String) : Reference :=
  let outside (shadow : Option ClassId) : Reference :=
    match t.resolveTypeName scopes scope name with
    | some ref => .type ref
    | none => t.importedOrUnknown name shadow
  t.nameInLevels name outside none (scopes.levels scope)

/-! ## calls -/

def selectOverloads (t : Table) (overloads : List MethodId) (arguments : Int) : List MethodId :=
  overloads.filter fun m => (t.method m).accepts arguments

def methodInLevels (t : Table) (name : String) (arguments : Int) :
    Option ClassId → List Frame → Reference
  | shadow, [] => t.importedOrUnknown name shadow
  | shadow, level :: rest =>
    match level.cls with
    | none => methodInLevels t name arguments shadow rest
    | some c =>
      match t.findMethods c name with
      | ([], isOpaque) =>
        if objectMethods.contains name then .unresolved name (some c)
        else methodInLevels t name arguments (passing shadow c isOpaque) rest
      | (overloads, isOpaque) =>
        match t.selectOverloads overloads arguments with
        | [] => if isOpaque then .unresolved name (some c) else .methods overloads c shadow
        | chosen => .methods chosen c shadow

def resolveMethod (t : Table) (scopes : Scopes) (scope : ScopeId) (name : String)
    (arguments : Int) : Reference :=
  t.methodInLevels name arguments none (scopes.levels scope)

/-! ## supertypes as written -/

/-- whether a class, or a supertype of it in the unit, names one of the given supertypes -/
def declaresSupertype (t : Table) (c : ClassId) (names : List String) : Bool :=
  (t.hierarchy c).any fun k =>
    let d := t.decl k
    (d.interfaces ++ (d.superclass.filter (· != "")).toList).any fun written =>
      names.contains (TypeName.clean written)

end Table

end StaticPromotion
