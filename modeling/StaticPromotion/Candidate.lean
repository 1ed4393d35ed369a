import StaticPromotion.Lookup

/-!
# Candidates

A candidate is a method that no subclass can replace, is not static, has a body, and is not called by the serialization
runtime on an instance.

* `Skip`               the grounds on which a method is no candidate;
* `Hook`               a signature reserved by the serialization runtime; parameter types are compared by simple name;
* `Table.skipReason`   the first ground that applies to a method;
* `Table.candidates`   the candidates of a class, in source order.
-/

namespace StaticPromotion

inductive Skip where
  | constructor
  | alreadyStatic
  | overridable
  | noBody
  | serializationHook
deriving DecidableEq, Repr

def Skip.message : Skip → String
  | .constructor => "constructor"
  | .alreadyStatic => "already static"
  | .overridable => "overridable"
  | .noBody => "no body"
  | .serializationHook => "serialization hook"

/-! ## hooks -/

structure Hook where
  name : String
  params : List String
deriving Repr

def Hook.matches (h : Hook) (m : Method) : Bool :=
  m.name == h.name && m.paramTypes.map TypeName.simple == h.params

def serializationHooks : List Hook :=
  [⟨"writeObject", ["ObjectOutputStream"]⟩, ⟨"readObject", ["ObjectInputStream"]⟩,
    ⟨"readObjectNoData", []⟩]

def serializableNames : List String :=
  ["Serializable", "java.io.Serializable"]

namespace Table

def isSerializationHook (t : Table) (m : MethodId) : Bool :=
  serializationHooks.any (·.matches (t.method m)) && t.declaresSupertype m.owner serializableNames

/-! ## the choice -/

def skipReason (t : Table) (id : MethodId) : Option Skip :=
  let m := t.method id
  if m.isConstructor then some .constructor
  else if m.isStatic then some .alreadyStatic
  else if !m.isNonOverridable then some .overridable
  else if m.body.isNone then some .noBody
  else if t.isSerializationHook id then some .serializationHook
  else none

def candidates (t : Table) (c : ClassId) : List MethodId :=
  (t.methodIds c).filter fun m => (t.method m).node.isSome && (t.skipReason m).isNone

end Table

end StaticPromotion
