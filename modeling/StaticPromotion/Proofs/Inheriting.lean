import StaticPromotion.Proofs.Decoding
import StaticPromotion.Proofs.Independence
import StaticPromotion.Proofs.Nesting
import StaticPromotion.Proofs.Passing
import Mathlib.Logic.Relation

/-!
# Private members of supertypes

A lookup goes from class to class outwards, and in each class through its hierarchy. There it takes every member, private or not,
although a class does not inherit the private members of its supertypes: a name found so may stand for the member of a class
further out.

* `Table.Extends`              a class names a supertype in the unit;
* `Table.mem_hierarchy_iff`    the hierarchy of a class is what can be reached from it in this way;
* `Table.fieldOrigin?`         the first class of the hierarchy that has a field of that name. It decides what a lookup finds;
* `Table.IsPrivateField`       the declaration of the field is private;
* `Table.PrivateFieldsStay`, `Table.PrivateMethodsStay`   no lookup finds a private member in another class than its own;
* `Table.private_members_stay_iff`   this is so exactly if no subclass could find one: nothing in the lookup prevents it.
-/

namespace StaticPromotion

theorem Method.accepts_arity (m : Method) : m.accepts m.arity = true := by
  rw [accepts, beq_self_eq_true, Bool.true_or]

namespace Table

variable {m : MethodId}

/-! ## what a breadth-first search reaches -/

section
variable {next : ClassId → List ClassId} {all unseen queue : List ClassId} {k : ClassId}

/-- some source reaches `k`, with steps to elements of `all` only -/
def Reached (next : ClassId → List ClassId) (all sources : List ClassId) (k : ClassId) : Prop :=
  ∃ s ∈ sources, s ∈ all ∧ Relation.ReflTransGen (fun a b => b ∈ next a ∧ b ∈ all) s k

theorem Reached.mono {sources sources' : List ClassId} (h : Reached next all sources k) (hsub : sources ⊆ sources') :
    Reached next all sources' k := by
  obtain ⟨s, hs, hall, hpath⟩ := h
  exact ⟨s, hsub hs, hall, hpath⟩

/-- a source and what follows it -/
theorem Reached.of_append {c : ClassId} (hc : c ∈ queue) (hall : c ∈ all) (h : Reached next all (queue ++ next c) k) :
    Reached next all queue k := by
  obtain ⟨s, hs, hsall, hpath⟩ := h
  rcases List.mem_append.mp hs with hqueue | hnext
  · exact ⟨s, hqueue, hsall, hpath⟩
  · exact ⟨c, hc, hall, .head ⟨hnext, hsall⟩ hpath⟩

theorem reached_of_mem_breadthFirst (hunseen : unseen ⊆ all) (h : k ∈ breadthFirst next unseen queue) :
    Reached next all queue k := by
  fun_induction breadthFirst next unseen queue with
  | case1 => cases h
  | case2 unseen queue c found ih =>
    have hqueue : c ∈ queue := List.mem_of_find?_eq_some found
    have hall : c ∈ all := hunseen (List.contains_iff_mem.mp (List.find?_some found))
    rcases List.mem_cons.mp h with rfl | hrest
    · exact ⟨k, hqueue, hall, .refl⟩
    · exact (ih (fun x hx => hunseen (List.mem_of_mem_erase hx)) hrest).of_append hqueue hall

/-- the invariant of the search: what has been seen is still queued, with all that follows it -/
def Expanded (next : ClassId → List ClassId) (all unseen queue : List ClassId) : Prop :=
  ∀ x ∈ all, x ∉ unseen → next x ⊆ queue

/-- once all of the queue has been seen, so has all that it reaches -/
theorem not_mem_unseen_of_reached (hexpanded : Expanded next all unseen queue) (hseen : ∀ x ∈ queue, x ∉ unseen)
    (h : Reached next all queue k) : k ∉ unseen := by
  obtain ⟨s, hs, hall, hpath⟩ := h
  have hclosed : k ∈ queue ∧ k ∈ all := by
    induction hpath with
    | refl => exact ⟨hs, hall⟩
    | tail _ hstep ih => exact ⟨hexpanded _ ih.2 (hseen _ ih.1) hstep.1, hstep.2⟩
  exact hseen k hclosed.1

theorem mem_breadthFirst_of_reached (hexpanded : Expanded next all unseen queue) (hk : k ∈ unseen)
    (h : Reached next all queue k) : k ∈ breadthFirst next unseen queue := by
  fun_induction breadthFirst next unseen queue with
  | case1 unseen queue found =>
    have hseen : ∀ x ∈ queue, x ∉ unseen := fun x hx hmem =>
      List.find?_eq_none.mp found x hx (List.contains_iff_mem.mpr hmem)
    exact absurd hk (not_mem_unseen_of_reached hexpanded hseen h)
  | case2 unseen queue c found ih =>
    by_cases hkc : k = c
    · exact hkc ▸ List.mem_cons_self
    refine List.mem_cons_of_mem _ (ih (fun x hx hmem => ?_) ?_ (h.mono (List.subset_append_left _ _)))
    · by_cases hxc : x = c
      · exact hxc ▸ List.subset_append_right _ _
      · have hxunseen : x ∉ unseen := fun hin => hmem ((List.mem_erase_of_ne hxc).mpr hin)
        exact List.Subset.trans (hexpanded x hx hxunseen) (List.subset_append_left _ _)
    · exact (List.mem_erase_of_ne hkc).mpr hk

end

/-! ## the hierarchy of a class -/

section
variable {t : Table} {c k : ClassId}

def Extends (t : Table) (c k : ClassId) : Prop :=
  k ∈ (t.decl c).supertypes ∧ k < t.classes.size

theorem mem_hierarchy_iff : k ∈ t.hierarchy c ↔ c < t.classes.size ∧ Relation.ReflTransGen t.Extends c k := by
  have hreached : Reached (fun k => (t.decl k).supertypes) t.classIds [c] k ↔
      c < t.classes.size ∧ Relation.ReflTransGen t.Extends c k := by
    simp only [Reached, List.mem_singleton, exists_eq_left, mem_classIds]
    exact Iff.rfl
  rw [← hreached]
  constructor
  · exact reached_of_mem_breadthFirst (List.Subset.refl _)
  · intro h
    have hk : k ∈ t.classIds := by
      obtain ⟨hc, hpath⟩ := hreached.mp h
      cases hpath with
      | refl => exact mem_classIds.mpr hc
      | tail _ hstep => exact mem_classIds.mpr hstep.2
    exact mem_breadthFirst_of_reached (fun x hx hnot => absurd hx hnot) hk h

theorem lt_of_mem_hierarchy (h : k ∈ t.hierarchy c) : c < t.classes.size ∧ k < t.classes.size := by
  obtain ⟨hc, hpath⟩ := mem_hierarchy_iff.mp h
  cases hpath with
  | refl => exact ⟨hc, hc⟩
  | tail _ hstep => exact ⟨hc, hstep.2⟩

/-! ## members found in a class -/

def fieldOrigin? (t : Table) (c : ClassId) (name : String) : Option ClassId :=
  (t.hierarchy c).find? fun k => ((t.decl k).fields.get? name).isSome

theorem findSome?_eq_bind {α β : Type} (f : α → Option β) (xs : List α) :
    xs.findSome? f = (xs.find? fun x => (f x).isSome).bind f := by
  induction xs with
  | nil => rfl
  | cons x xs ih =>
    cases hx : f x with
    | none => simp [hx, ih]
    | some y => simp [hx]

theorem findField_fst (t : Table) (c : ClassId) (name : String) :
    (t.findField c name).1 = (t.fieldOrigin? c name).bind fun k => (t.decl k).fields.get? name := by
  rw [fieldOrigin?, ← findSome?_eq_bind, findField]
  split
  · rename_i field hfound
    rw [hfound]
  · rename_i hnone
    rw [hnone]

theorem mem_findMethods {name : String} :
    m ∈ (t.findMethods c name).1 ↔ m.owner ∈ t.hierarchy c ∧ m ∈ t.methodIds m.owner ∧
      (t.method m).name = name ∧ (t.method m).isConstructor = false := by
  have howner : ∀ k, m ∈ t.methodIds k → m.owner = k := by
    intro k hm
    obtain ⟨_, _, rfl⟩ := List.mem_map.mp hm
    rfl
  simp only [findMethods, methodsNamed, List.mem_flatMap, List.mem_filter, Bool.and_eq_true, beq_iff_eq,
    Bool.not_eq_true']
  constructor
  · rintro ⟨k, hk, hm, hname, hplain⟩
    rw [howner k hm]
    exact ⟨hk, hm, hname, hplain⟩
  · rintro ⟨hk, hm, hname, hplain⟩
    exact ⟨m.owner, hk, hm, hname, hplain⟩

end

/-! ## lookups -/

section
variable {t : Table} {scopes : Scopes} {scope : ScopeId} {name : String} {via : ClassId} {shadow : Option ClassId}

theorem findField_of_nameInLevels {outside : Option ClassId → Reference} {field : Field}
    (houtside : ∀ shadow shadow', outside shadow ≠ .field field via shadow') {levels : List Frame}
    {passed : Option ClassId} (h : t.nameInLevels name outside passed levels = .field field via shadow) :
    (t.findField via name).1 = some field := by
  induction levels generalizing passed with
  | nil => exact absurd h (houtside passed shadow)
  | cons level rest ih =>
    rw [nameInLevels] at h
    cases hcls : level.cls with
    | none =>
      rw [hcls] at h
      dsimp only at h
      split at h
      · cases h
      · exact ih h
    | some c =>
      rw [hcls] at h
      dsimp only at h
      split at h
      · rename_i found isOpaque hfound
        cases h
        rw [hfound]
      · exact ih h

theorem findField_of_resolveName {field : Field} (h : t.resolveName scopes scope name = .field field via shadow) :
    (t.findField via name).1 = some field := by
  refine findField_of_nameInLevels (fun passed shadow' => ?_) h
  cases t.resolveTypeName scopes scope name with
  | some ref => simp
  | none =>
    dsimp only
    rw [importedOrUnknown]
    split <;> simp

theorem mem_findMethods_of_methodInLevels {arguments : Int} {overloads : List MethodId} (hm : m ∈ overloads)
    {levels : List Frame} {passed : Option ClassId}
    (h : t.methodInLevels name arguments passed levels = .methods overloads via shadow) :
    m ∈ (t.findMethods via name).1 := by
  induction levels generalizing passed with
  | nil =>
    rw [methodInLevels, importedOrUnknown] at h
    split at h <;> cases h
  | cons level rest ih =>
    rw [methodInLevels] at h
    cases hcls : level.cls with
    | none =>
      rw [hcls] at h
      exact ih h
    | some c =>
      rw [hcls] at h
      dsimp only at h
      split at h
      · split at h
        · cases h
        · exact ih h
      · rename_i found isOpaque _ hfound
        split at h
        · split at h
          · cases h
          · cases h
            rw [hfound]
            exact hm
        · rename_i chosen
          cases h
          rw [hfound]
          exact (List.mem_filter.mp hm).1

end

/-! ## lookups from the level of a class -/

section
variable {t : Table} {source : SourceUnit} {c : ClassId} {name : String}

theorem classLevel_of_ofSource (built : ofSource source = .ok t) (hc : c < t.classes.size) : t.ClassLevel c := by
  obtain ⟨a, _, hran⟩ := ranMembers_of_ofSource built hc
  exact ClassLevel.stays hran.fits.stands hran.stays

theorem ClassLevel.levels (h : t.ClassLevel c) :
    ∃ level rest, t.scopes.levels (t.decl c).scope = level :: rest ∧ level.cls = some c :=
  ⟨_, _, rfl, h.own⟩

theorem ClassLevel.resolveName (h : t.ClassLevel c) {field : Field} (hfield : (t.findField c name).1 = some field) :
    t.resolveName t.scopes (t.decl c).scope name = .field field c none := by
  obtain ⟨level, rest, hlevels, hcls⟩ := h.levels
  rw [Table.resolveName, hlevels, nameInLevels, hcls]
  dsimp only
  split
  · rename_i found _ hfound
    rw [hfound] at hfield
    cases hfield
    rfl
  · rename_i hfound
    rw [hfound] at hfield
    cases hfield

theorem ClassLevel.resolveMethod (h : t.ClassLevel c) (hm : m ∈ (t.findMethods c name).1) :
    ∃ overloads, t.resolveMethod t.scopes (t.decl c).scope name (t.method m).arity = .methods overloads c none ∧
      m ∈ overloads := by
  obtain ⟨level, rest, hlevels, hcls⟩ := h.levels
  rw [Table.resolveMethod, hlevels, methodInLevels, hcls]
  dsimp only
  split
  · rename_i hfound
    rw [hfound] at hm
    cases hm
  · rename_i found isOpaque _ hfound
    have hchosen : m ∈ t.selectOverloads found (t.method m).arity := by
      rw [hfound] at hm
      exact List.mem_filter.mpr ⟨hm, Method.accepts_arity _⟩
    split
    · rename_i hnone
      rw [hnone] at hchosen
      cases hchosen
    · exact ⟨_, rfl, hchosen⟩

end

/-! ## private members -/

/-- some member of its class that declares such a field is private. A field keeps its name, line and whether it is static, so two
declarations of one name on one line are not told apart -/
def IsPrivateField (t : Table) (field : Field) : Prop :=
  ∃ member ∈ t.membersOf field.owner, field.DeclaredBy t.source (t.decl field.owner).kind member ∧
    "private" ∈ member.modifiers.1

def PrivateFieldsStay (t : Table) : Prop :=
  ∀ scopes scope name field via shadow, t.resolveName scopes scope name = .field field via shadow →
    field.owner ≠ via → ¬ t.IsPrivateField field

def PrivateMethodsStay (t : Table) : Prop :=
  ∀ scopes scope name arguments overloads via shadow,
    t.resolveMethod scopes scope name arguments = .methods overloads via shadow →
      ∀ m ∈ overloads, m.owner ≠ via → "private" ∉ (t.method m).modifiers

section
variable {t : Table} {source : SourceUnit} {c k : ClassId} {name : String} {field : Field}

theorem lt_of_fieldOrigin? (h : t.fieldOrigin? c name = some k) : c < t.classes.size ∧ k < t.classes.size :=
  lt_of_mem_hierarchy (List.mem_of_find?_eq_some h)

theorem originates_of_findField (built : ofSource source = .ok t) (h : (t.findField c name).1 = some field) :
    t.fieldOrigin? c name = some field.owner ∧ t.Originates field.owner (name, field) := by
  rw [findField_fst] at h
  obtain ⟨k, hk, hfield⟩ := Option.bind_eq_some_iff.mp h
  have horiginates := originates_of_ofSource built (lt_of_fieldOrigin? hk).2 (Registry.mem_of_get? hfield)
  obtain rfl : field.owner = k := horiginates.owner
  exact ⟨hk, horiginates⟩

theorem privateFieldsStay_iff (built : ofSource source = .ok t) :
    t.PrivateFieldsStay ↔ ∀ c k name field, t.fieldOrigin? c name = some k → k ≠ c →
      (t.decl k).fields.get? name = some field → ¬ t.IsPrivateField field := by
  constructor
  · intro hstay c k name field horigin hne hfield
    have hfound : (t.findField c name).1 = some field := by
      rw [findField_fst, horigin]
      exact hfield
    obtain ⟨howner, _⟩ := originates_of_findField built hfound
    obtain rfl : k = field.owner := Option.some.inj (horigin.symm.trans howner)
    have hlevel := classLevel_of_ofSource built (lt_of_fieldOrigin? horigin).1
    exact hstay _ _ name field c none (hlevel.resolveName hfound) hne
  · intro hnone scopes scope name field via shadow hresolve hne
    have hfound := findField_of_resolveName hresolve
    obtain ⟨horigin, _⟩ := originates_of_findField built hfound
    rw [findField_fst, horigin] at hfound
    exact hnone via field.owner name field horigin hne hfound

theorem privateMethodsStay_iff (built : ofSource source = .ok t) :
    t.PrivateMethodsStay ↔ ∀ c k, c < t.classes.size → Relation.ReflTransGen t.Extends c k → k ≠ c →
      ∀ m ∈ t.methodIds k, (t.method m).isConstructor = false → "private" ∉ (t.method m).modifiers := by
  constructor
  · intro hstay c k hc hpath hne m hm hplain
    obtain rfl : m.owner = k := by
      obtain ⟨_, _, rfl⟩ := List.mem_map.mp hm
      rfl
    have hfound : m ∈ (t.findMethods c (t.method m).name).1 :=
      mem_findMethods.mpr ⟨mem_hierarchy_iff.mpr ⟨hc, hpath⟩, hm, rfl, hplain⟩
    obtain ⟨overloads, hresolve, hoverload⟩ := (classLevel_of_ofSource built hc).resolveMethod hfound
    exact hstay _ _ _ _ overloads c none hresolve m hoverload hne
  · intro hnone scopes scope name arguments overloads via shadow hresolve m hm hne
    obtain ⟨hhierarchy, hid, _, hplain⟩ := mem_findMethods.mp (mem_findMethods_of_methodInLevels hm hresolve)
    obtain ⟨hvia, hpath⟩ := mem_hierarchy_iff.mp hhierarchy
    exact hnone via m.owner hvia hpath hne m hid hplain

/-- A field found by name is the first of that name in the hierarchy of the class that it is found in, and has its declaration
there. Private members are found in their own classes alone exactly if no class of the unit has a subclass in the unit that
could find one: of fields the first in the hierarchy counts, of methods each that is no constructor. -/
theorem private_members_stay_iff (built : ofSource source = .ok t) :
    (∀ scopes scope name field via shadow, t.resolveName scopes scope name = .field field via shadow →
      t.fieldOrigin? via name = some field.owner ∧ t.Originates field.owner (name, field)) ∧
    (t.PrivateFieldsStay ↔ ∀ c k name field, t.fieldOrigin? c name = some k → k ≠ c →
      (t.decl k).fields.get? name = some field → ¬ t.IsPrivateField field) ∧
    (t.PrivateMethodsStay ↔ ∀ c k, c < t.classes.size → Relation.ReflTransGen t.Extends c k → k ≠ c →
      ∀ m ∈ t.methodIds k, (t.method m).isConstructor = false → "private" ∉ (t.method m).modifiers) := by
  refine ⟨fun scopes scope name field via shadow hresolve => ?_, privateFieldsStay_iff built,
    privateMethodsStay_iff built⟩
  exact originates_of_findField built (findField_of_resolveName hresolve)

end

end Table

/-! ## a subclass inside of its superclass -/

def xName : Node :=
  ⟨"identifier", true, false, 22, 23, some "name", []⟩

def xDeclarator : Node :=
  ⟨"variable_declarator", true, false, 22, 23, some "declarator", [xName]⟩

/-- `private int x;` -/
def xDeclaration : Node :=
  ⟨"field_declaration", true, false, 10, 24, none, [
    ⟨"modifiers", true, false, 10, 17, none, [
      ⟨"private", false, false, 10, 17, none, []⟩]⟩,
    ⟨"integral_type", true, false, 18, 21, some "type", []⟩,
    xDeclarator,
    ⟨";", false, false, 23, 24, none, []⟩]⟩

/-- `class A { private int x; private void p() { } private void f() { class B extends A { int g() { p(); return x; } } } }` -/
def subclassInside : SourceUnit :=
  .ofText ("class A \x7b private int x; private void p() \x7b \x7d private void f() \x7b " ++
    "class B extends A \x7b int g() \x7b p(); return x; \x7d \x7d \x7d \x7d") ⟨
    ⟨"program", true, false, 0, 117, none, [
      ⟨"class_declaration", true, false, 0, 117, none, [
        ⟨"class", false, false, 0, 5, none, []⟩, ⟨"identifier", true, false, 6, 7, some "name", []⟩,
        ⟨"class_body", true, false, 8, 117, some "body", [
          ⟨"\x7b", false, false, 8, 9, none, []⟩,
          xDeclaration,
          ⟨"method_declaration", true, false, 25, 45, none, [
            ⟨"modifiers", true, false, 25, 32, none, [
              ⟨"private", false, false, 25, 32, none, []⟩]⟩,
            ⟨"void_type", true, false, 33, 37, some "type", []⟩, ⟨"identifier", true, false, 38, 39, some "name", []⟩,
            ⟨"formal_parameters", true, false, 39, 41, some "parameters", [
              ⟨"(", false, false, 39, 40, none, []⟩, ⟨")", false, false, 40, 41, none, []⟩]⟩,
            ⟨"block", true, false, 42, 45, some "body", [
              ⟨"\x7b", false, false, 42, 43, none, []⟩, ⟨"\x7d", false, false, 44, 45, none, []⟩]⟩]⟩,
          ⟨"method_declaration", true, false, 46, 115, none, [
            ⟨"modifiers", true, false, 46, 53, none, [
              ⟨"private", false, false, 46, 53, none, []⟩]⟩,
            ⟨"void_type", true, false, 54, 58, some "type", []⟩, ⟨"identifier", true, false, 59, 60, some "name", []⟩,
            ⟨"formal_parameters", true, false, 60, 62, some "parameters", [
              ⟨"(", false, false, 60, 61, none, []⟩, ⟨")", false, false, 61, 62, none, []⟩]⟩,
            ⟨"block", true, false, 63, 115, some "body", [
              ⟨"\x7b", false, false, 63, 64, none, []⟩,
              ⟨"class_declaration", true, false, 65, 113, none, [
                ⟨"class", false, false, 65, 70, none, []⟩, ⟨"identifier", true, false, 71, 72, some "name", []⟩,
                ⟨"superclass", true, false, 73, 82, some "superclass", [
                  ⟨"extends", false, false, 73, 80, none, []⟩, ⟨"type_identifier", true, false, 81, 82, none, []⟩]⟩,
                ⟨"class_body", true, false, 83, 113, some "body", [
                  ⟨"\x7b", false, false, 83, 84, none, []⟩,
                  ⟨"method_declaration", true, false, 85, 111, none, [
                    ⟨"integral_type", true, false, 85, 88, some "type", []⟩,
                    ⟨"identifier", true, false, 89, 90, some "name", []⟩,
                    ⟨"formal_parameters", true, false, 90, 92, some "parameters", [
                      ⟨"(", false, false, 90, 91, none, []⟩, ⟨")", false, false, 91, 92, none, []⟩]⟩,
                    ⟨"block", true, false, 93, 111, some "body", [
                      ⟨"\x7b", false, false, 93, 94, none, []⟩,
                      ⟨"expression_statement", true, false, 95, 99, none, [
                        ⟨"method_invocation", true, false, 95, 98, none, [
                          ⟨"identifier", true, false, 95, 96, some "name", []⟩,
                          ⟨"argument_list", true, false, 96, 98, some "arguments", [
                            ⟨"(", false, false, 96, 97, none, []⟩, ⟨")", false, false, 97, 98, none, []⟩]⟩]⟩,
                        ⟨";", false, false, 98, 99, none, []⟩]⟩,
                      ⟨"return_statement", true, false, 100, 109, none, [
                        ⟨"return", false, false, 100, 106, none, []⟩, ⟨"identifier", true, false, 107, 108, none, []⟩,
                        ⟨";", false, false, 108, 109, none, []⟩]⟩,
                      ⟨"\x7d", false, false, 110, 111, none, []⟩]⟩]⟩,
                  ⟨"\x7d", false, false, 112, 113, none, []⟩]⟩]⟩,
              ⟨"\x7d", false, false, 114, 115, none, []⟩]⟩]⟩,
          ⟨"\x7d", false, false, 116, 117, none, []⟩]⟩]⟩]⟩, none⟩

namespace Table

/-- what is needed about the table of `subclassInside` -/
def FindsInSubclass (t : Table) : Prop :=
  t.classes.size = 2 ∧ (t.decl 0).kind = .ordinary ∧ (t.decl 1).supertypes = [0] ∧ xDeclaration ∈ t.membersOf 0 ∧
    (t.findField 1 "x").1.map (fun f => (f.name, f.owner, f.isStatic, f.line)) = some ("x", 0, false, 1) ∧
    (t.source.text xName).toOption = some "x" ∧ t.source.line xDeclarator = 1 ∧
    (t.findMethods 1 "p").1 = [⟨0, 0⟩] ∧ (t.method ⟨0, 0⟩).arity = 0 ∧ "private" ∈ (t.method ⟨0, 0⟩).modifiers ∧
    t.declaredWithin 1 ⟨0, 1⟩ = true ∧ (t.verdict ⟨0, 1⟩).toOption = some (.clear [])
deriving Decidable

theorem subclassInside_finds : ∃ t, ofSource subclassInside = .ok t ∧ t.FindsInSubclass := by
  have h : (ofSource subclassInside).toOption.any (fun t => decide t.FindsInSubclass) = true := by
    rw [subclassInside, SourceUnit.ofText_eq]
    decide +kernel
  obtain ⟨t, built, hall⟩ := Run.of_toOption_any h
  exact ⟨t, built, of_decide_eq_true hall⟩

theorem FindsInSubclass.privateField {t : Table} (h : t.FindsInSubclass) :
    ∃ field, (t.findField 1 "x").1 = some field ∧ field.owner = 0 ∧ t.IsPrivateField field := by
  obtain ⟨_, hkind, _, hmember, hfield, htext, hline, _⟩ := h
  obtain ⟨field, hfound, hdata⟩ := Option.map_eq_some_iff.mp hfield
  obtain ⟨name, owner, isStatic, line⟩ := field
  cases hdata
  have hnamed : xDeclarator ∈ xDeclaration.declarators ∧ xDeclarator.child? "name" = some xName := by decide
  refine ⟨_, hfound, rfl, xDeclaration, hmember, ⟨⟨xDeclarator, hnamed.1, xName, hnamed.2, ?_, hline.symm⟩, ?_⟩, ?_⟩
  · exact Run.of_toOption_eq htext
  · rw [hkind]
    decide
  · decide

/-- In the body of `f`, where `x` and `p` of the enclosing instance are meant, both are found in `B` and pass for members of the
class that `f` declares. -/
theorem private_members_found_in_subclass :
    ∃ t, ofSource subclassInside = .ok t ∧ t.declaredWithin 1 ⟨0, 1⟩ = true ∧
      (∃ field, t.resolveName t.scopes (t.decl 1).scope "x" = .field field 1 none ∧ field.owner = 0 ∧
        t.IsPrivateField field) ∧
      (∃ overloads, t.resolveMethod t.scopes (t.decl 1).scope "p" 0 = .methods overloads 1 none ∧
        ⟨0, 0⟩ ∈ overloads ∧ "private" ∈ (t.method ⟨0, 0⟩).modifiers) ∧
      t.verdict ⟨0, 1⟩ = .ok (.clear []) := by
  obtain ⟨t, built, hall⟩ := subclassInside_finds
  obtain ⟨field, hfield, howner, hprivateField⟩ := hall.privateField
  obtain ⟨hsize, _, _, _, _, _, _, hmethods, harity, hprivate, hwithin, hverdict⟩ := hall
  have hlevel := classLevel_of_ofSource built (c := 1) (by rw [hsize]; decide)
  have hmem : ⟨0, 0⟩ ∈ (t.findMethods 1 "p").1 := by
    rw [hmethods]
    exact List.mem_singleton_self _
  obtain ⟨overloads, hresolve, hoverload⟩ := hlevel.resolveMethod hmem
  rw [harity] at hresolve
  exact ⟨t, built, hwithin, ⟨field, hlevel.resolveName hfield, howner, hprivateField⟩,
    ⟨overloads, hresolve, hoverload, hprivate⟩, Run.of_toOption_eq hverdict⟩

theorem subclassInside_private_members :
    ∃ t, ofSource subclassInside = .ok t ∧ ¬ t.PrivateFieldsStay ∧ ¬ t.PrivateMethodsStay := by
  obtain ⟨t, built, hall⟩ := subclassInside_finds
  obtain ⟨field, hfield, howner, hprivateField⟩ := hall.privateField
  obtain ⟨hsize, _, hsupertypes, _, _, _, _, hmethods, _, hprivate, _⟩ := hall
  obtain ⟨_, hfields, hmethodsStay⟩ := private_members_stay_iff built
  refine ⟨t, built, fun hstay => ?_, fun hstay => ?_⟩
  · obtain ⟨horigin, _⟩ := originates_of_findField built hfield
    rw [howner] at horigin
    have hget : (t.decl 0).fields.get? "x" = some field := by
      rw [findField_fst, horigin] at hfield
      exact hfield
    exact hfields.mp hstay 1 0 "x" field horigin (by decide) hget hprivateField
  · have hextends : t.Extends 1 0 := by
      rw [Extends, hsupertypes, hsize]
      decide
    have hmem : (⟨0, 0⟩ : MethodId) ∈ (t.findMethods 1 "p").1 := by
      rw [hmethods]
      exact List.mem_singleton_self _
    obtain ⟨_, hid, _, hplain⟩ := mem_findMethods.mp hmem
    exact hmethodsStay.mp hstay 1 0 (by rw [hsize]; decide) (.single hextends) (by decide) _ hid hplain hprivate

end Table

end StaticPromotion
