import StaticPromotion.Access
import StaticPromotion.Candidate
import StaticPromotion.Proofs.Editing

/-!
# Tables that say the same

A table over an edited tree, in which some methods may have become static. It declares the same classes and members in the same
scopes, so every lookup in it finds the same.

* `Table.Restates e t t'`       `t'` is `t` over the tree edited by `e`; the modifiers of methods may differ;
* `Restates.findField`, `Restates.findMethods`, ...    each lookup, once;
* `Table.AddsStatic S t t'`     the methods `S` have become static, and nothing else is said of modifiers;
* `AddsStatic.capturesInstance`    fewer creations capture an instance, as a local class of a static method captures none;
* `AddsStatic.candidates`       the candidates are those that did not become static.
-/

namespace StaticPromotion

namespace Table

variable {m : MethodId}

/-- the inspection of a method -/
abbrev subject (t : Table) (m : MethodId) : Subject :=
  { table := t, method := m }

structure Restates (e : Edit) (t t' : Table) : Prop where
  size : t'.classes.size = t.classes.size
  scopes : t'.scopes = t.scopes
  package : t'.package = t.package
  topLevel : t'.topLevel = t.topLevel
  importedTypes : t'.importedTypes = t.importedTypes
  staticImports : t'.staticImports = t.staticImports
  decl : ∀ c, t'.decl c = { t.decl c with
    body := (t.decl c).body.map (Node.edit e), methods := (t'.decl c).methods }
  methodCount : ∀ c, (t'.decl c).methods.size = (t.decl c).methods.size
  method : ∀ m, t'.method m = { t.method m with
    node := (t.method m).node.map (Node.edit e), modifiers := (t'.method m).modifiers }
  classFor : ∀ n : Node, t'.classFor (n.edit e) = t.classFor n
  height : t'.source.root.height = t.source.root.height

namespace Restates

variable {e : Edit} {t t' : Table} (h : t.Restates e t')
include h

/-! ## declarations -/

theorem name (c : ClassId) : (t'.decl c).name = (t.decl c).name :=
  congrArg (·.name) (h.decl c)

theorem kind (c : ClassId) : (t'.decl c).kind = (t.decl c).kind :=
  congrArg (·.kind) (h.decl c)

theorem outers (c : ClassId) : (t'.decl c).outers = (t.decl c).outers :=
  congrArg (·.outers) (h.decl c)

theorem enclosingMethod (c : ClassId) : (t'.decl c).enclosingMethod = (t.decl c).enclosingMethod :=
  congrArg (·.enclosingMethod) (h.decl c)

theorem fields (c : ClassId) : (t'.decl c).fields = (t.decl c).fields :=
  congrArg (·.fields) (h.decl c)

theorem memberTypes (c : ClassId) : (t'.decl c).memberTypes = (t.decl c).memberTypes :=
  congrArg (·.memberTypes) (h.decl c)

theorem supertypes (c : ClassId) : (t'.decl c).supertypes = (t.decl c).supertypes :=
  congrArg (·.supertypes) (h.decl c)

theorem opaqueFields (c : ClassId) : (t'.decl c).opaqueFields = (t.decl c).opaqueFields :=
  congrArg (·.opaqueFields) (h.decl c)

theorem opaqueMethods (c : ClassId) : (t'.decl c).opaqueMethods = (t.decl c).opaqueMethods :=
  congrArg (·.opaqueMethods) (h.decl c)

theorem scope (c : ClassId) : (t'.decl c).scope = (t.decl c).scope :=
  congrArg (·.scope) (h.decl c)

theorem body (c : ClassId) : (t'.decl c).body = (t.decl c).body.map (Node.edit e) :=
  congrArg (·.body) (h.decl c)

theorem properName (c : ClassId) : (t'.decl c).properName = (t.decl c).properName := by
  rw [ClassDecl.properName, h.name, ClassDecl.properName]

theorem methodName (m : MethodId) : (t'.method m).name = (t.method m).name :=
  congrArg (·.name) (h.method m)

theorem isConstructor (m : MethodId) : (t'.method m).isConstructor = (t.method m).isConstructor :=
  congrArg (·.isConstructor) (h.method m)

theorem accepts (m : MethodId) (arguments : Int) :
    (t'.method m).accepts arguments = (t.method m).accepts arguments := by
  rw [h.method m]
  rfl

theorem methodNode (m : MethodId) : (t'.method m).node = (t.method m).node.map (Node.edit e) :=
  congrArg (·.node) (h.method m)

theorem methodBody (m : MethodId) : (t'.method m).body = (t.method m).body.map (Node.edit e) := by
  rw [Method.body, h.methodNode, Method.body]
  cases (t.method m).node with
  | none => rfl
  | some n => exact Node.child?_edit e n "body"

theorem parameterNames (m : MethodId) :
    ((t'.method m).parameters.map Node.parameterNames).getD [] =
      (((t.method m).parameters.map Node.parameterNames).getD []).map (Node.edit e) := by
  rw [Method.parameters, h.methodNode, Method.parameters]
  cases (t.method m).node with
  | none => rfl
  | some n => exact Node.parameters_edit e n

theorem classIds : t'.classIds = t.classIds := by
  rw [Table.classIds, h.size, Table.classIds]

theorem methodIds (c : ClassId) : t'.methodIds c = t.methodIds c := by
  rw [Table.methodIds, h.methodCount, Table.methodIds]

/-! ## inheritance -/

theorem hierarchy (c : ClassId) : t'.hierarchy c = t.hierarchy c := by
  rw [Table.hierarchy, funext h.supertypes, h.classIds, Table.hierarchy]

theorem findField (c : ClassId) (name : String) : t'.findField c name = t.findField c name := by
  simp only [Table.findField, h.hierarchy, h.fields, h.opaqueFields]

theorem methodsNamed (c : ClassId) (name : String) : t'.methodsNamed c name = t.methodsNamed c name := by
  simp only [Table.methodsNamed, h.methodIds, h.methodName, h.isConstructor]

theorem findMethods (c : ClassId) (name : String) : t'.findMethods c name = t.findMethods c name := by
  simp only [Table.findMethods, h.hierarchy, h.methodsNamed, h.opaqueMethods]

theorem findMemberType (c : ClassId) (name : String) :
    t'.findMemberType c name = t.findMemberType c name := by
  simp only [Table.findMemberType, h.hierarchy, h.memberTypes]

/-! ## names -/

theorem resolveTypeName (s : Scopes) (scope : ScopeId) (name : String) :
    t'.resolveTypeName s scope name = t.resolveTypeName s scope name := by
  have hlevel : t'.typeAtLevel name = t.typeAtLevel name := by
    funext level
    simp only [typeAtLevel, h.name, h.findMemberType]
  simp only [Table.resolveTypeName, hlevel, h.topLevel, h.importedTypes]

theorem resolveTypeText (s : Scopes) (scope : ScopeId) (text : String) :
    t'.resolveTypeText s scope text = t.resolveTypeText s scope text := by
  simp only [Table.resolveTypeText, h.resolveTypeName, memberPath, h.findMemberType, h.package,
    h.topLevel]

theorem nameInLevels (name : String) (outside : Option ClassId → Reference)
    (shadow : Option ClassId) (levels : List Frame) :
    t'.nameInLevels name outside shadow levels = t.nameInLevels name outside shadow levels := by
  induction levels generalizing shadow with
  | nil => rfl
  | cons level levels ih => simp only [Table.nameInLevels, h.findField, ih]

theorem resolveName (s : Scopes) (scope : ScopeId) (name : String) :
    t'.resolveName s scope name = t.resolveName s scope name := by
  simp only [Table.resolveName, h.nameInLevels, h.resolveTypeName, importedOrUnknown, h.staticImports]

theorem methodInLevels (name : String) (arguments : Int) (shadow : Option ClassId) (levels : List Frame) :
    t'.methodInLevels name arguments shadow levels = t.methodInLevels name arguments shadow levels := by
  induction levels generalizing shadow with
  | nil => simp only [Table.methodInLevels, importedOrUnknown, h.staticImports]
  | cons level levels ih =>
    simp only [Table.methodInLevels, h.findMethods, selectOverloads, h.accepts, ih]

theorem resolveMethod (s : Scopes) (scope : ScopeId) (name : String) (arguments : Int) :
    t'.resolveMethod s scope name arguments = t.resolveMethod s scope name arguments :=
  h.methodInLevels name arguments none _

/-! ## instances -/

theorem declaredWithin (c : ClassId) (m : MethodId) : t'.declaredWithin c m = t.declaredWithin c m := by
  simp only [Table.declaredWithin, h.outers, h.enclosingMethod]

theorem isForeign (m : MethodId) (c : Option ClassId) :
    (t'.subject m).isForeign c = (t.subject m).isForeign c := by
  simp only [Subject.isForeign, h.declaredWithin]

theorem requiresOuterInstance (c : ClassId) : t'.requiresOuterInstance c = t.requiresOuterInstance c := by
  have houter : (t'.decl c).outer = (t.decl c).outer := by
    rw [ClassDecl.outer, h.outers, ClassDecl.outer]
  have hstatic : (t'.decl c).isStatic = (t.decl c).isStatic := congrArg (·.isStatic) (h.decl c)
  have hlocal : (t'.decl c).isLocal = (t.decl c).isLocal := congrArg (·.isLocal) (h.decl c)
  simp only [Table.requiresOuterInstance, h.kind, houter, hstatic, hlocal]

theorem declaresSupertype (c : ClassId) (names : List String) :
    t'.declaresSupertype c names = t.declaresSupertype c names := by
  have hinterfaces : ∀ k, (t'.decl k).interfaces = (t.decl k).interfaces :=
    fun k => congrArg (·.interfaces) (h.decl k)
  have hsuperclass : ∀ k, (t'.decl k).superclass = (t.decl k).superclass :=
    fun k => congrArg (·.superclass) (h.decl k)
  simp only [Table.declaresSupertype, h.hierarchy, hinterfaces, hsuperclass]

theorem isSerializationHook (m : MethodId) : t'.isSerializationHook m = t.isSerializationHook m := by
  have hmatches : ∀ hook : Hook, hook.matches (t'.method m) = hook.matches (t.method m) := by
    intro hook
    rw [h.method m]
    rfl
  simp only [Table.isSerializationHook, hmatches, h.declaresSupertype]

/-- of a creation, if the methods around local classes are as static as before -/
theorem capturesInstance {c : ClassId}
    (hstatic : (t.decl c).isLocal = true → (t.decl c).kind = .ordinary → ∀ enclosing,
      (t.decl c).enclosingMethod = some enclosing →
        (t'.method enclosing).isStatic = (t.method enclosing).isStatic) (m : MethodId) :
    t'.capturesInstance m c = t.capturesInstance m c := by
  have hisStatic : (t'.decl c).isStatic = (t.decl c).isStatic := congrArg (·.isStatic) (h.decl c)
  have hisLocal : (t'.decl c).isLocal = (t.decl c).isLocal := congrArg (·.isLocal) (h.decl c)
  simp only [Table.capturesInstance, h.declaredWithin, h.requiresOuterInstance, h.kind, hisStatic,
    hisLocal, h.enclosingMethod]
  by_cases hlocal : (t.decl c).isLocal = true
  · by_cases hkind : (t.decl c).kind = .ordinary
    · cases henclosing : (t.decl c).enclosingMethod with
      | none => rfl
      | some enclosing => simp only [Option.all_some, hstatic hlocal hkind enclosing henclosing]
    · simp only [beq_eq_false_iff_ne.mpr hkind, Bool.and_false, Bool.false_and]
  · simp only [Bool.eq_false_iff.mpr hlocal, Bool.false_and]

end Restates

/-! ## methods that became static -/

/-- the table declares the method -/
def Declares (t : Table) (m : MethodId) : Prop :=
  m.index < (t.decl m.owner).methods.size

instance (t : Table) (m : MethodId) : Decidable (t.Declares m) :=
  inferInstanceAs (Decidable (_ < _))

theorem method_of_not_declares {t : Table} (h : ¬ t.Declares m) : t.method m = default := by
  rw [Table.method, Array.getD_eq_getD_getElem?, Array.getElem?_eq_none (Nat.not_lt.mp h)]
  rfl

theorem declares_of_isStatic {t : Table} (h : (t.method m).isStatic = true) : t.Declares m := by
  by_contra hout
  rw [method_of_not_declares hout] at h
  cases h

theorem declares_of_isNonOverridable {t : Table} (h : (t.method m).isNonOverridable = true) :
    t.Declares m := by
  by_contra hout
  rw [method_of_not_declares hout] at h
  cases h

structure AddsStatic (S : List MethodId) (t t' : Table) : Prop where
  isNonOverridable : ∀ m, (t'.method m).isNonOverridable = (t.method m).isNonOverridable
  isStatic : ∀ m, t.Declares m →
    (t'.method m).isStatic = ((t.method m).isStatic || decide (m ∈ S))

namespace AddsStatic

variable {e : Edit} {S : List MethodId} {t t' : Table} (hadds : AddsStatic S t t')
include hadds

theorem staysStatic (h : (t.method m).isStatic = true) : (t'.method m).isStatic = true := by
  rw [hadds.isStatic m (declares_of_isStatic h), h, Bool.true_or]

variable (h : t.Restates e t')
include h

/-- a method is static now only if it was so, or has become so -/
theorem isStatic_of_not_mem (hm : m ∉ S) : (t'.method m).isStatic = (t.method m).isStatic := by
  by_cases hdeclares : t.Declares m
  · rw [hadds.isStatic m hdeclares, decide_eq_false hm, Bool.or_false]
  · have hdeclares' : ¬ t'.Declares m := by
      rw [Declares, h.methodCount]
      exact hdeclares
    rw [method_of_not_declares hdeclares, method_of_not_declares hdeclares']

/-- what captures an instance now did so before -/
theorem capturesInstance {c : ClassId} (hcaptures : t'.capturesInstance m c = true) :
    t.capturesInstance m c = true := by
  have hstatic : (t'.decl c).isStatic = (t.decl c).isStatic := congrArg (·.isStatic) (h.decl c)
  have hlocal : (t'.decl c).isLocal = (t.decl c).isLocal := congrArg (·.isLocal) (h.decl c)
  simp only [Table.capturesInstance, h.declaredWithin, h.requiresOuterInstance, h.kind, hstatic,
    hlocal, h.enclosingMethod, Bool.and_eq_true, Bool.or_eq_true] at hcaptures ⊢
  refine ⟨hcaptures.1, hcaptures.2.imp_right fun hlocal => ⟨hlocal.1, ?_⟩⟩
  refine (Option.all_eq_true _ _).mpr fun enclosing henclosing => ?_
  have hafter := (Option.all_eq_true _ _).mp hlocal.2 enclosing henclosing
  rw [Bool.not_eq_true'] at hafter ⊢
  by_contra hbefore
  rw [hadds.staysStatic (Bool.not_eq_false _ ▸ hbefore)] at hafter
  cases hafter

/-! ## candidates -/

theorem skipReason (hdeclares : t.Declares m) :
    (t'.skipReason m).isNone = ((t.skipReason m).isNone && decide (m ∉ S)) := by
  have hbody : (t'.method m).body.isNone = (t.method m).body.isNone := by
    rw [h.methodBody, Option.isNone_map]
  simp only [Table.skipReason, h.isConstructor, hadds.isNonOverridable, hbody,
    h.isSerializationHook, hadds.isStatic m hdeclares]
  by_cases hm : m ∈ S
  · by_cases hconstructor : (t.method m).isConstructor = true
    · simp [hconstructor]
    · simp [hconstructor, hm]
  · simp [hm]

theorem candidates (c : ClassId) : t'.candidates c = (t.candidates c).filter fun m => decide (m ∉ S) := by
  rw [Table.candidates, h.methodIds, Table.candidates, List.filter_filter]
  refine List.filter_congr fun m hm => ?_
  have hdeclares : t.Declares m := by
    obtain ⟨index, hindex, rfl⟩ := List.mem_map.mp hm
    exact List.mem_range.mp hindex
  rw [h.methodNode, Option.isSome_map, hadds.skipReason h hdeclares, Bool.and_comm (decide _),
    Bool.and_assoc]

end AddsStatic

end Table

end StaticPromotion
