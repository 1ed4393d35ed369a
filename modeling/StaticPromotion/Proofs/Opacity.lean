import StaticPromotion.Proofs.Coverage
import StaticPromotion.Proofs.Independence

/-!
# Classes that may inherit a name unseen

A class with a supertype outside the unit is opaque: a name that is not found in it may still be one of its members. If the
class stands around the inspected method, that member would be one of the instance. A lookup that passes several opaque
classes remembers the innermost of them only, and so it is the innermost one that decides about the use.

* `Use`                  a simple name as a value, or the name of a call without an object;
* `Use.declares`, `Use.isOpaque`   what one level of the lookup says about a name;
* `Use.seek`             the lookup from some level outwards; `seek_append` takes it past levels that do not declare the name;
* `Table.Evaluates`      a use that the inspection of a method comes to;
* `access_past_opaque`   the use of a name that a foreign opaque class hides: exactly when it is an access.
-/

namespace StaticPromotion

variable {level : Frame}

open Subject

inductive Use where
  | value
  | call (arguments : Int)
deriving DecidableEq

namespace Use

/-! ## what a level says about a name -/

/-- declared in the level: a variable of a block, a member of a class, own or inherited within the unit -/
def declares (t : Table) (name : String) : Use → Frame → Bool
  | .value, level =>
    match level.cls with
    | none => level.locals.contains name
    | some c => (t.findField c name).1.isSome
  | .call _, level => level.cls.any fun c => !(t.findMethods c name).1.isEmpty

/-- a supertype outside the unit may declare it -/
def isOpaque (t : Table) (name : String) : Use → ClassId → Bool
  | .value, c => (t.findField c name).2
  | .call _, c => (t.findMethods c name).2

def firstOpaque (t : Table) (name : String) (use : Use) (levels : List Frame) : Option ClassId :=
  levels.findSome? fun level => level.cls.filter (use.isOpaque t name)

/-- not known otherwise: as a type, or as a method of every class -/
def isOrdinary (t : Table) (scopes : Scopes) (scope : ScopeId) (name : String) : Use → Bool
  | .value => (t.resolveTypeName scopes scope name).isNone
  | .call _ => !objectMethods.contains name

/-- a subclass may replace it, so a call of it needs the instance -/
def isVirtual (m : Method) : Bool :=
  !m.isStatic && !(m.isNonOverridable && !m.isConstructor)

/-- what a level declares under the name belongs to instances -/
def needsInstance (t : Table) (name : String) : Use → Frame → Bool
  | .value, level => level.cls.any fun c => (t.findField c name).1.any fun field => !field.isStatic
  | .call arguments, level => level.cls.any fun c =>
    let (overloads, isOpaque) := t.findMethods c name
    match t.selectOverloads overloads arguments with
    | [] => isOpaque || overloads.any fun m => isVirtual (t.method m)
    | chosen => chosen.any fun m => isVirtual (t.method m)

/-- the innermost declaration in some levels belongs to instances -/
def bindsInstance (t : Table) (name : String) (use : Use) (levels : List Frame) : Bool :=
  (levels.find? (use.declares t name)).any (use.needsInstance t name)

/-! ## lookups -/

/-- what the name denotes -/
def refer (t : Table) (scopes : Scopes) (scope : ScopeId) (name : String) : Use → Reference
  | .value => t.resolveName scopes scope name
  | .call arguments => t.resolveMethod scopes scope name arguments

def seek (t : Table) (name : String) : Use → Option ClassId → List Frame → Reference
  | .value, shadow, levels => t.nameInLevels name (t.importedOrUnknown name) shadow levels
  | .call arguments, shadow, levels => t.methodInLevels name arguments shadow levels

variable {t : Table} {scopes : Scopes} {scope : ScopeId} {name : String} {use : Use}

theorem refer_eq_seek (h : use.isOrdinary t scopes scope name = true) :
    use.refer t scopes scope name = use.seek t name none (scopes.levels scope) := by
  cases use with
  | value =>
    have htype : t.resolveTypeName scopes scope name = none := Option.isNone_iff_eq_none.mp h
    rw [refer, Table.resolveName, htype]
    rfl
  | call arguments => rfl

theorem passing_eq_or (shadow : Option ClassId) (c : ClassId) (isOpaque : Bool) :
    Table.passing shadow c isOpaque = shadow.or (if isOpaque then some c else none) := by
  cases shadow <;> cases isOpaque <;> rfl

theorem firstOpaque_cons (level : Frame) (levels : List Frame) :
    use.firstOpaque t name (level :: levels) =
      (level.cls.filter (use.isOpaque t name)).or (use.firstOpaque t name levels) := by
  rw [firstOpaque, List.findSome?_cons]
  cases level.cls.filter (use.isOpaque t name) <;> rfl

theorem firstOpaque_append (inner outer : List Frame) :
    use.firstOpaque t name (inner ++ outer) =
      (use.firstOpaque t name inner).or (use.firstOpaque t name outer) :=
  List.findSome?_append

theorem seek_cons (hname : use.isOrdinary t scopes scope name = true)
    (h : use.declares t name level = false) (shadow : Option ClassId) (rest : List Frame) :
    use.seek t name shadow (level :: rest) =
      use.seek t name (shadow.or (level.cls.filter (use.isOpaque t name))) rest := by
  cases use with
  | value =>
    rw [seek, Table.nameInLevels, seek]
    cases hcls : level.cls with
    | none =>
      simp only [declares, hcls] at h
      simp only [h, Option.filter_none, Option.or_none, Bool.false_eq_true, if_false]
    | some c =>
      simp only [declares, hcls, Option.isSome_eq_false_iff, Option.isNone_iff_eq_none] at h
      cases hfound : t.findField c name with
      | mk field hidden =>
        rw [hfound] at h
        subst h
        have hopaque : value.isOpaque t name c = hidden := by rw [isOpaque, hfound]
        rw [Option.filter_some, hopaque, ← passing_eq_or]
        dsimp only
        rw [hfound]
  | call arguments =>
    rw [seek, Table.methodInLevels, seek]
    cases hcls : level.cls with
    | none => simp only [Option.filter_none, Option.or_none]
    | some c =>
      simp only [declares, hcls, Option.any_some, Bool.not_eq_false', List.isEmpty_iff] at h
      cases hfound : t.findMethods c name with
      | mk overloads hidden =>
        rw [hfound] at h
        subst h
        have hopaque : (call arguments).isOpaque t name c = hidden := by rw [isOpaque, hfound]
        have hobject : ¬ objectMethods.contains name = true := by
          simpa [isOrdinary] using hname
        rw [Option.filter_some, hopaque, ← passing_eq_or]
        dsimp only
        rw [hfound]
        exact if_neg hobject

theorem seek_append (hname : use.isOrdinary t scopes scope name = true) {inner : List Frame}
    (h : ∀ level ∈ inner, use.declares t name level = false) (shadow : Option ClassId) (rest : List Frame) :
    use.seek t name shadow (inner ++ rest) =
      use.seek t name (shadow.or (use.firstOpaque t name inner)) rest := by
  induction inner generalizing shadow with
  | nil => rw [List.nil_append, firstOpaque, List.findSome?_nil, Option.or_none]
  | cons level inner ih =>
    rw [List.cons_append, seek_cons hname (h level List.mem_cons_self),
      ih fun l hl => h l (List.mem_cons_of_mem _ hl), firstOpaque_cons, Option.or_assoc]

end Use

/-! ## steps that halt under a condition -/

/-- halts at an access on the given line if `p` holds, and runs through otherwise -/
def Decides (x : Walk Unit) (line : Nat) (p : Prop) : Prop :=
  ∀ st, (p → ∃ reason last, x st = .error (.access ⟨reason, line⟩) last) ∧
    (¬p → ∃ last, x st = .ok () last)

section
variable {x y : Walk Unit} {line : Nat} {p q : Prop}

theorem Decides.congr (h : Decides x line p) (hiff : p ↔ q) : Decides x line q :=
  propext hiff ▸ h

theorem decides_pure : Decides (pure ()) line False :=
  fun st => ⟨False.elim, fun _ => ⟨st, rfl⟩⟩

theorem Decides.andThen (hx : Decides x line p) (hy : Decides y line q) :
    Decides (x >>= fun _ => y) line (p ∨ q) := by
  intro st
  by_cases hp : p
  · obtain ⟨reason, last, hhalt⟩ := (hx st).1 hp
    exact ⟨fun _ => ⟨reason, last, Run.bind_of_error hhalt⟩, fun h => absurd (.inl hp) h⟩
  · obtain ⟨st₁, hran⟩ := (hx st).2 hp
    refine ⟨fun h => ?_, fun h => ?_⟩
    · obtain ⟨reason, last, hhalt⟩ := (hy st₁).1 (h.resolve_left hp)
      exact ⟨reason, last, (Run.bind_of_ok hran).trans hhalt⟩
    · obtain ⟨last, hran'⟩ := (hy st₁).2 fun hq => h (.inr hq)
      exact ⟨last, (Run.bind_of_ok hran).trans hran'⟩

theorem decides_forM {α : Type} {xs : List α} {f : α → Walk Unit} {needed : α → Bool}
    (h : ∀ a, Decides (f a) line (needed a = true)) : Decides (xs.forM f) line (xs.any needed = true) := by
  induction xs with
  | nil => exact decides_pure.congr (by simp)
  | cons a xs ih =>
    have hboth := (h a).andThen ih
    rw [← Bool.or_eq_true, ← List.any_cons] at hboth
    exact hboth

end

namespace Subject

variable {s : Subject} (hstrict : s.exhaustive = false) {name : String} {n : Node}
  {c d : ClassId}
include hstrict

theorem decides_note (reason : Reason) : Decides (s.note reason n) (s.table.source.line n) True := by
  intro st
  refine ⟨fun _ => ⟨reason, st, ?_⟩, fun h => absurd trivial h⟩
  rw [note, hstrict]
  rfl

theorem decides_noteIf (needed : Bool) (reason : Reason) :
    Decides (if needed then s.note reason n else pure ()) (s.table.source.line n)
      (needed = true) := by
  cases needed with
  | true => exact (decides_note hstrict reason).congr (by simp)
  | false => exact decides_pure.congr (by simp)

theorem decides_noteInherited (reason : String → Reason) :
    Decides (s.noteInherited (some d) reason n) (s.table.source.line n)
      (s.table.declaredWithin d s.method = false) :=
  (decides_noteIf hstrict (s.isForeign (some d)) _).congr (isForeign_some s d)

theorem decides_callees (overloads : List MethodId) :
    Decides (overloads.forM fun callee => do
      let m := s.table.method callee
      if m.isStatic then pure ()
      else if m.isNonOverridable && !m.isConstructor then addEdge callee
      else s.note (.callsInstanceMethod (s.table.qualifiedName callee)) n)
      (s.table.source.line n) (overloads.any (fun m => Use.isVirtual (s.table.method m)) = true) := by
  refine decides_forM fun callee => ?_
  dsimp only
  by_cases hstatic : (s.table.method callee).isStatic = true
  · rw [if_pos hstatic]
    exact decides_pure.congr (by simp [Use.isVirtual, hstatic])
  · rw [if_neg hstatic]
    by_cases hfixed : ((s.table.method callee).isNonOverridable &&
        !(s.table.method callee).isConstructor) = true
    · rw [if_pos hfixed]
      intro st
      refine ⟨fun h => ?_, fun _ => ⟨_, rfl⟩⟩
      rw [Use.isVirtual, hfixed] at h
      simp at h
    · rw [if_neg hfixed]
      refine (decides_note hstrict _).congr ?_
      rw [Bool.not_eq_true] at hfixed hstatic
      simp [Use.isVirtual, hfixed, hstatic]

theorem decides_checkCall (overloads : List MethodId) (hc : s.table.declaredWithin c s.method = false) :
    Decides (s.checkCall (.methods overloads c (some d)) name n) (s.table.source.line n)
      (s.table.declaredWithin d s.method = false ∨
        overloads.any (fun m => Use.isVirtual (s.table.method m)) = true) := by
  rw [checkCall, if_pos ((isForeign_some s c).mpr hc)]
  exact (decides_noteInherited hstrict _).andThen (decides_callees hstrict overloads)

/-! ## a use in the shadow of an opaque class -/

/-- judges the use of a name by what it denotes -/
def checkUse (s : Subject) (use : Use) (ref : Reference) (name : String) (n : Node) : Walk Unit :=
  match use with
  | .value => s.checkReference ref name n
  | .call _ => s.checkCall ref name n

theorem decides_checkImported (use : Use) :
    Decides (s.checkUse use (s.table.importedOrUnknown name (some d)) name n)
      (s.table.source.line n) (s.table.declaredWithin d s.method = false) := by
  rw [Table.importedOrUnknown]
  split
  · cases use <;> exact decides_noteInherited hstrict (.mayBeInherited name)
  · cases use with
    | value => exact decides_noteInherited hstrict (.mayBeInherited name)
    | call => exact decides_noteInherited hstrict fun _ => .callsInherited name

theorem decides_checkDeclared {use : Use} (rest : List Frame)
    (hdeclares : use.declares s.table name level = true)
    (hforeign : ∀ c, level.cls = some c → s.table.declaredWithin c s.method = false) :
    Decides (s.checkUse use (use.seek s.table name (some d) (level :: rest)) name n)
      (s.table.source.line n)
      (s.table.declaredWithin d s.method = false ∨ use.needsInstance s.table name level = true) := by
  cases use with
  | value =>
    rw [Use.seek, Table.nameInLevels]
    cases hcls : level.cls with
    | none =>
      simp only [Use.declares, hcls] at hdeclares
      simp only [hdeclares, if_true]
      refine (decides_noteInherited hstrict _).congr ?_
      simp [Use.needsInstance, hcls]
    | some c =>
      simp only [Use.declares, hcls] at hdeclares
      cases hfound : s.table.findField c name with
      | mk found hidden =>
        rw [hfound] at hdeclares
        obtain ⟨field, rfl⟩ := Option.isSome_iff_exists.mp hdeclares
        have hread := decides_noteIf hstrict (n := n) (!field.isStatic && s.isForeign (some c))
          (.readsField name)
        dsimp only
        rw [hfound]
        refine ((decides_noteInherited hstrict (.mayBeInherited name)).andThen hread).congr ?_
        rw [(isForeign_some s c).mpr (hforeign c hcls), Bool.and_true, Use.needsInstance, hcls,
          Option.any_some, hfound, Option.any_some]
  | call arguments =>
    rw [Use.seek, Table.methodInLevels]
    cases hcls : level.cls with
    | none => simp [Use.declares, hcls] at hdeclares
    | some c =>
      have hc := hforeign c hcls
      simp only [Use.declares, hcls, Option.any_some] at hdeclares
      dsimp only
      cases hfound : s.table.findMethods c name with
      | mk overloads hidden =>
        have hneeds : (Use.call arguments).needsInstance s.table name level =
            match s.table.selectOverloads overloads arguments with
            | [] => hidden || overloads.any fun m => Use.isVirtual (s.table.method m)
            | chosen => chosen.any fun m => Use.isVirtual (s.table.method m) := by
          rw [Use.needsInstance, hcls, Option.any_some, hfound]
        rw [hneeds]
        cases overloads with
        | nil => simp [hfound] at hdeclares
        | cons first others =>
          dsimp only
          cases hchosen : s.table.selectOverloads (first :: others) arguments with
          | cons callee callees => exact decides_checkCall hstrict _ hc
          | nil =>
            cases hidden with
            | true =>
              refine (decides_noteInherited hstrict fun _ => .callsInherited name).congr ?_
              simp [hc]
            | false => exact decides_checkCall hstrict _ hc

/-- Past an opaque class `d`, where all classes further out stand around the inspected method. -/
theorem decides_checkUse {use : Use} {scopes : Scopes} {scope : ScopeId}
    (hname : use.isOrdinary s.table scopes scope name = true) {beyond : List Frame}
    (hforeign : ∀ level ∈ beyond, ∀ c, level.cls = some c → s.table.declaredWithin c s.method = false) :
    Decides (s.checkUse use (use.seek s.table name (some d) beyond) name n)
      (s.table.source.line n)
      (s.table.declaredWithin d s.method = false ∨ use.bindsInstance s.table name beyond = true) := by
  rw [Use.bindsInstance]
  cases hfind : beyond.find? (use.declares s.table name) with
  | none =>
    have hnone : ∀ level ∈ beyond, use.declares s.table name level = false := by
      simpa using hfind
    have hseek : use.seek s.table name (some d) beyond =
        s.table.importedOrUnknown name (some d) := by
      have hpast := Use.seek_append hname hnone (some d) []
      rw [List.append_nil, Option.some_or] at hpast
      rw [hpast]
      cases use <;> rfl
    rw [hseek]
    exact (decides_checkImported hstrict use).congr (by simp)
  | some level =>
    obtain ⟨hdeclares, inner, rest, hsplit, hnot⟩ := List.find?_eq_some_iff_append.mp hfind
    have hnone : ∀ level ∈ inner, use.declares s.table name level = false :=
      fun level hlevel => by simpa using hnot level hlevel
    rw [hsplit, Use.seek_append hname hnone, Option.some_or, Option.any_some]
    exact decides_checkDeclared hstrict rest hdeclares (hforeign level (by simp [hsplit]))

end Subject

/-! ## classes further out -/

namespace Scopes

theorem classes_eq_levels (s : Scopes) (sc : ScopeId) : s.classes sc = (s.levels sc).filterMap (·.cls) := by
  rw [classes, levels, List.filterMap_map]
  rfl

theorem classes_child (s : Scopes) (parent : ScopeId) (label : String) (id : ScopeId) :
    ∃ old, (s.child parent label).2.classes id = s.classes old := by
  have hcls : ∀ x, ((s.child parent label).2.frame x).cls = (s.frame x).cls := by
    intro x
    by_cases hx : x = s.frames.size
    · rw [hx, child, frame_add_self, frame_of_le s (Nat.le_refl _)]
      rfl
    · rw [child, frame_add_of_ne s _ hx]
  by_cases hid : id = s.frames.size
  · refine ⟨parent, ?_⟩
    have hchain : (s.child parent label).2.chain id = id :: s.chain parent := by
      rw [hid]
      exact chain_add_self s _
    simp only [classes, hchain, List.filterMap_cons, hcls]
    rw [hid, frame_of_le s (Nat.le_refl _)]
    rfl
  · refine ⟨id, ?_⟩
    have hchain : (s.child parent label).2.chain id = s.chain id := by
      rw [chain, chain, child, frame_add_of_ne s _ hid]
    simp only [classes, hchain, hcls]

theorem classes_modifyFrame (s : Scopes) (sc : ScopeId) (change : Frame → Frame)
    (hcls : ∀ f, (change f).cls = f.cls) (hancestors : ∀ f, (change f).ancestors = f.ancestors)
    (id : ScopeId) : (s.modifyFrame sc change).classes id = s.classes id := by
  have hframe : ∀ x, ((s.modifyFrame sc change).frame x).cls = (s.frame x).cls ∧
      ((s.modifyFrame sc change).frame x).ancestors = (s.frame x).ancestors := by
    intro x
    have hgrows := grows_modifyFrame s sc change hcls hancestors
    rcases Nat.lt_or_ge x s.frames.size with hlt | hge
    · exact ⟨hgrows.cls x hlt, hgrows.ancestors x hlt⟩
    · rw [frame_of_le s hge, frame_of_le _ (size_modifyFrame s sc change ▸ hge)]
      exact ⟨rfl, rfl⟩
  simp only [classes, chain, hframe]

end Scopes

namespace Table

theorem invariant_nested (t : Table) :
    Scopes.Invariant fun s => ∀ id, t.Nested (s.classes id) where
  child s sc label h id := by
    obtain ⟨old, hold⟩ := s.classes_child sc label id
    rw [hold]
    exact h old
  declare s sc name h id := by
    rw [Scopes.declare, Scopes.classes_modifyFrame s sc]
    · exact h id
    · exact fun _ => rfl
    · exact fun _ => rfl
  declareType s sc name c h id := by
    rw [Scopes.declareType, Scopes.classes_modifyFrame s sc]
    · exact h id
    · exact fun _ => rfl
    · exact fun _ => rfl

variable {t : Table} {source : SourceUnit}

theorem Sound.nested_all (h : t.Sound) (id : ScopeId) : t.Nested (t.scopes.classes id) := by
  rcases Nat.lt_or_ge id t.scopes.frames.size with hlt | hge
  · exact h.nested id hlt
  · have hnone : t.scopes.classes id = [] := by
      rw [Scopes.classes, Scopes.chain, t.scopes.frame_of_le hge]
      show List.filterMap _ [id] = []
      rw [List.filterMap_cons, t.scopes.frame_of_le hge]
      rfl
    rw [hnone]
    exact ⟨fun _ hc => absurd hc List.not_mem_nil, List.Pairwise.nil⟩

theorem ScopesReached.nested {s : Scopes} (hs : t.ScopesReached s) (built : ofSource source = .ok t)
    (id : ScopeId) : t.Nested (s.classes id) := by
  induction hs generalizing id with
  | start => exact (sound_of_ofSource built).nested_all id
  | next _ hverdict ih => exact t.invariant_nested.kept.classify (admission_all t) ih hverdict id

/-- what stands in the body of a method has all that it encloses in there -/
theorem Sound.declaredWithin_of_outer (h : t.Sound) {c o : ClassId} {m : MethodId} (hc : c < t.classes.size)
    (ho : o ∈ (t.decl c).outers) (hwithin : t.declaredWithin o m = true) : t.declaredWithin c m = true := by
  rw [declaredWithin, List.any_eq_true] at hwithin ⊢
  obtain ⟨k, hk, henclosing⟩ := hwithin
  refine ⟨k, List.mem_cons_of_mem _ ?_, henclosing⟩
  rcases List.mem_cons.mp hk with rfl | hk
  · exact ho
  · exact h.outers_trans c hc o ho hk

/-- all classes further out than a foreign one are foreign -/
theorem foreign_beyond (h : t.Sound) {s : Scopes} {scope : ScopeId} (hnested : t.Nested (s.classes scope))
    {inner beyond : List Frame} (hlevels : s.levels scope = inner ++ level :: beyond) {c : ClassId}
    (hcls : level.cls = some c) {m : MethodId} (hforeign : t.declaredWithin c m = false) :
    ∀ outer ∈ beyond, ∀ k, outer.cls = some k → t.declaredWithin k m = false := by
  intro outer houter k hk
  rw [Scopes.classes_eq_levels, hlevels, List.filterMap_append, List.filterMap_cons, hcls] at hnested
  obtain ⟨hlt, hpairs⟩ := hnested
  have hmem : k ∈ beyond.filterMap (·.cls) := List.mem_filterMap.mpr ⟨outer, houter, hk⟩
  have hencloses : k ∈ (t.decl c).outers :=
    (List.pairwise_cons.mp (List.pairwise_append.mp hpairs).2.1).1 k hmem
  have hc : c < t.classes.size := hlt c (List.mem_append_right _ List.mem_cons_self)
  cases hwithin : t.declaredWithin k m with
  | false => rfl
  | true =>
    rw [h.declaredWithin_of_outer hc hencloses hwithin] at hforeign
    cases hforeign

/-! ## uses that an inspection comes to -/

/-- The inspection of `m` comes to the use of a name, at a node and in a scope. -/
inductive Evaluates (t : Table) (scopes : Scopes) (m : MethodId) :
    Use → Node → String → ScopeId → WalkState → Prop
  /-- a name standing alone -/
  | name {n : Node} {name : String} {scope : ScopeId} {st : WalkState} {depth : Nat}
      (inspects : t.Inspects scopes m (depth + 1) (.code n scope) st)
      (whole : n.isBroken = false) (named : n.named = true) (construct : n.construct = .identifier)
      (text : t.source.text n = .ok name) : Evaluates t scopes m .value n name scope st
  /-- the name in front of a method reference -/
  | reference {n target : Node} {others : List Node} {name : String} {scope : ScopeId}
      {st : WalkState} {depth : Nat}
      (inspects : t.Inspects scopes m (depth + 1) (.code n scope) st)
      (whole : n.isBroken = false) (named : n.named = true)
      (construct : n.construct = .methodReference) (parts : n.namedChildren = target :: others)
      (identifier : target.isIdentifier = true) (noSuper : others.any (·.kind == "super") = false)
      (noNew : n.children.any (·.kind == "new") = false)
      (text : t.source.text target = .ok name) : Evaluates t scopes m .value target name scope st
  /-- a call without an object -/
  | call {n : Node} {name : String} {scope : ScopeId} {st : WalkState} {depth : Nat}
      (inspects : t.Inspects scopes m (depth + 1) (.code n scope) st)
      (whole : n.isBroken = false) (named : n.named = true) (construct : n.construct = .invocation)
      (noObject : n.child? "object" = none) (text : t.source.optionalText (n.child? "name") = .ok name) :
      Evaluates t scopes m (.call (Node.argumentCount (n.child? "arguments"))) n name scope st

section
variable {scopes : Scopes} {m : MethodId} {use : Use} {n : Node} {name : String} {scope : ScopeId}
  {st : WalkState} (h : t.Evaluates scopes m use n name scope st)
include h

theorem Evaluates.keeps {P : Scopes → Prop} (hP : Scopes.Invariant P) (hs : P scopes) : P st.scopes := by
  cases h with
  | name inspects => exact inspects.keeps hP hs
  | reference inspects => exact inspects.keeps hP hs
  | call inspects => exact inspects.keeps hP hs

/-- a use that is an access decides about the method -/
theorem Evaluates.access {last : WalkState} {finding : Finding}
    (hhalt : checkUse { table := t, method := m } use (use.refer t st.scopes scope name)
      name n st = .error (.access finding) last) :
    t.classify scopes m = .ok (.access finding, last.scopes) := by
  cases h with
  | name inspects whole named construct text =>
    refine inspects.access ?_
    simp only [walkRegion, visitCode, whole, named, construct]
    show (lift (t.source.text n) >>= _) st = _
    rw [text]
    exact hhalt
  | reference inspects whole named construct parts identifier noSuper noNew text =>
    refine inspects.access ?_
    have hkind : n.kind = "identifier" := by simpa [Node.isIdentifier] using identifier
    have hreceiver : (n.construct == .receiver) = false := by rw [Node.construct, hkind]; rfl
    have hthis : isThisAccess n = false := by rw [isThisAccess, hkind]; rfl
    simp only [walkRegion, visitCode, whole, named, construct, visitMethodReference, parts,
      hreceiver, hthis, noSuper, hkind, noNew, identifier, Bool.false_eq_true, if_false]
    show (lift (t.source.text n) >>= _) st = _
    rw [text]
    show (lift (t.source.text n) >>= _) st = _
    rw [text]
    exact hhalt
  | call inspects whole named construct noObject text =>
    refine inspects.access ?_
    simp only [walkRegion, visitCode, whole, named, construct]
    show (lift (t.source.optionalText (n.child? "name")) >>= _) st = _
    rw [text]
    refine Run.bind_of_error (x := visitCallee { table := t, method := m } _ n scope name) ?_
    unfold visitCallee
    rw [noObject]
    exact hhalt

end

/-- A name that a foreign opaque class hides, used where no level up to that class declares it. The innermost opaque class `d`
decides: if it is foreign too then the use is an access, whatever the name is bound to further out. If it is declared inside
the method then the use is an access only if the name is bound further out to something of an instance, and otherwise the
foreign class is looked through. -/
theorem access_past_opaque {source : SourceUnit} {t : Table} (built : ofSource source = .ok t)
    {scopes : Scopes} (reached : t.ScopesReached scopes) {m : MethodId} {use : Use} {n : Node}
    {name : String} {scope : ScopeId} {st : WalkState}
    (evaluates : t.Evaluates scopes m use n name scope st) {inner beyond : List Frame}
    {level : Frame} {c : ClassId} (levels : st.scopes.levels scope = inner ++ level :: beyond)
    (cls : level.cls = some c) (foreign : t.declaredWithin c m = false)
    (hides : use.isOpaque t name c = true)
    (undeclared : ∀ l ∈ inner ++ [level], use.declares t name l = false)
    (ordinary : use.isOrdinary t st.scopes scope name = true) :
    ∃ d, use.firstOpaque t name (inner ++ [level]) = some d ∧
      ((t.declaredWithin d m = false ∨ use.bindsInstance t name beyond = true) →
        ∃ reason s', t.classify scopes m = .ok (.access ⟨reason, t.source.line n⟩, s')) ∧
      (¬ (t.declaredWithin d m = false ∨ use.bindsInstance t name beyond = true) →
        ∃ last, Subject.checkUse { table := t, method := m } use
          (use.refer t st.scopes scope name) name n st = .ok () last) := by
  have hfirst : ∃ d, use.firstOpaque t name (inner ++ [level]) = some d := by
    rw [Use.firstOpaque_append, Use.firstOpaque_cons, cls, Option.filter_some, if_pos hides]
    cases use.firstOpaque t name inner with
    | none => exact ⟨c, rfl⟩
    | some d => exact ⟨d, rfl⟩
  obtain ⟨d, hd⟩ := hfirst
  have hsplit : st.scopes.levels scope = (inner ++ [level]) ++ beyond := by
    rw [levels, List.append_assoc, List.singleton_append]
  have hrefer : use.refer t st.scopes scope name = use.seek t name (some d) beyond := by
    rw [Use.refer_eq_seek ordinary, hsplit, Use.seek_append ordinary undeclared, hd, Option.none_or]
  have hnested : t.Nested (st.scopes.classes scope) :=
    evaluates.keeps t.invariant_nested (reached.nested built) scope
  have hdecides := Subject.decides_checkUse (s := { table := t, method := m }) rfl (n := n) (d := d)
    ordinary (foreign_beyond (sound_of_ofSource built) hnested levels cls foreign) st
  rw [← hrefer] at hdecides
  refine ⟨d, hd, fun haccess => ?_, hdecides.2⟩
  obtain ⟨reason, last, hhalt⟩ := hdecides.1 haccess
  exact ⟨reason, last.scopes, evaluates.access hhalt⟩

end Table

/-! ## an opaque class inside another -/

/-- the tree of `x`, and of what is around it -/
def hiddenName : Node := ⟨"identifier", true, false, 82, 83, none, []⟩

def hiddenReturn : Node :=
  ⟨"return_statement", true, false, 75, 84, none, [
    ⟨"return", false, false, 75, 81, none, []⟩, hiddenName]⟩

def innerBlock : Node := ⟨"block", true, false, 73, 86, some "body", [hiddenReturn]⟩

def innerMethod : Node :=
  ⟨"method_declaration", true, false, 65, 86, none, [
    ⟨"integral_type", true, false, 65, 68, some "type", [
      ⟨"int", false, false, 65, 68, none, []⟩]⟩,
    ⟨"identifier", true, false, 69, 70, some "name", []⟩,
    ⟨"formal_parameters", true, false, 70, 72, some "parameters", []⟩, innerBlock]⟩

def innerBody : Node := ⟨"class_body", true, false, 63, 88, some "body", [innerMethod]⟩

def innerClass : Node :=
  ⟨"class_declaration", true, false, 41, 88, none, [
    ⟨"class", false, false, 41, 46, none, []⟩, ⟨"identifier", true, false, 47, 48, some "name", []⟩,
    ⟨"superclass", true, false, 49, 62, some "superclass", [
      ⟨"extends", false, false, 49, 56, none, []⟩, ⟨"type_identifier", true, false, 57, 62, none, []⟩]⟩, innerBody]⟩

def outerBlock : Node := ⟨"block", true, false, 39, 90, some "body", [innerClass]⟩

/-- `class A extends Ext { private void f() { class B extends Other { int g() { return x; } } } }` -/
def opaquePair : SourceUnit :=
  .ofText ("class A extends Ext \x7b private void f() \x7b " ++
    "class B extends Other \x7b int g() \x7b return x; \x7d \x7d \x7d \x7d") ⟨
    ⟨"program", true, false, 0, 92, none, [
      ⟨"class_declaration", true, false, 0, 92, none, [
        ⟨"class", false, false, 0, 5, none, []⟩, ⟨"identifier", true, false, 6, 7, some "name", []⟩,
        ⟨"superclass", true, false, 8, 19, some "superclass", [
          ⟨"extends", false, false, 8, 15, none, []⟩, ⟨"type_identifier", true, false, 16, 19, none, []⟩]⟩,
        ⟨"class_body", true, false, 20, 92, some "body", [
          ⟨"method_declaration", true, false, 22, 90, none, [
            ⟨"modifiers", true, false, 22, 29, none, [
              ⟨"private", false, false, 22, 29, none, []⟩]⟩,
            ⟨"void_type", true, false, 30, 34, some "type", []⟩, ⟨"identifier", true, false, 35, 36, some "name", []⟩,
            ⟨"formal_parameters", true, false, 36, 38, some "parameters", []⟩,
            outerBlock]⟩]⟩]⟩]⟩, none⟩

/-- the levels that the inspection of `f` opens, up to the declaration of `B` -/
def scopesAtClass (t : Table) : Scopes :=
  let (scope, s) := t.scopes.child (t.decl 0).scope "method_f"
  let (inner, s) := s.child scope
  s.declareType inner "B" 1

/-- the level of `x`, and all levels down to it -/
def scopesAtUse (t : Table) : ScopeId × Scopes :=
  let (scope, s) := (scopesAtClass t).child (t.decl 1).scope "method"
  let (inner, s) := s.child scope
  s.child inner Node.statementLabel

/-- what the walk down to `x` needs to know -/
def Table.LeadsToUse (t : Table) : Prop :=
  (t.method ⟨0, 0⟩).body = some outerBlock ∧
  ((t.method ⟨0, 0⟩).parameters.map Node.parameterNames).getD [] = [] ∧
  (t.method ⟨0, 0⟩).name = "f" ∧ t.classFor innerClass = some 1 ∧
  (t.decl 1).body = some innerBody ∧ (t.decl 1).properName = some "B" ∧ walkDepth t = 39
deriving Decidable

theorem Table.LeadsToUse.evaluates {t : Table} (h : t.LeadsToUse) (hsource : t.source = opaquePair) :
    t.Evaluates t.scopes ⟨0, 0⟩ .value hiddenName "x" (scopesAtUse t).1
      { scopes := (scopesAtUse t).2 } := by
  obtain ⟨hbody, hparameters, hname, hclass, hinner, hproper, hdepth⟩ := h
  let opened := (scopesAtClass t).child (t.decl 1).scope "method"
  refine @Table.Evaluates.name _ _ _ _ _ _ _ 33
    ⟨outerBlock, _, _, hbody, by rw [hparameters, hname]; rfl, ?_⟩ rfl rfl rfl ?_
  · rw [hdepth]
    -- the class, its body, the block and the statement in there, and the name
    refine .onward (meets_enter rfl (meets_visit rfl []) : Meets _ _ _ (.code innerClass _) _) ?_
    refine .onward (?_ : Meets _ _ _ (.body 1) { scopes := scopesAtClass t }) ?_
    · intro go' halt last hsevered
      show (visitLocalClass _ go' innerClass _ >>= _) _ = _
      refine Run.bind_of_error ?_
      simp only [visitLocalClass, hclass, declareLocal, hproper]
      exact hsevered.there
    refine .onward (?_ : Meets _ _ _ (.code innerBlock opened.1) { scopes := opened.2 }) ?_
    · intro go' halt last hsevered
      simp only [visitRegion, visitBody, hinner]
      show (visitInnerMethod _ go' (t.decl 1) innerMethod >>= _) _ = _
      exact Run.bind_of_error hsevered.there
    refine .onward (meets_enter rfl (meets_visit rfl []) : Meets _ _ _ (.code hiddenReturn _) _) ?_
    exact .onward (meets_visit rfl []) (.here _ _ _)
  · rw [hsource]
    rfl

/-- the levels of the lookup of `x` -/
def levelsAtUse (t : Table) : List Frame :=
  (scopesAtUse t).2.levels (scopesAtUse t).1

/-- `x` is hidden by `A`, the seventh level, and by `B` inside the method -/
def Table.HidesUse (t : Table) : Prop :=
  (levelsAtUse t)[6]?.bind (·.cls) = some 0 ∧
  (∀ level ∈ levelsAtUse t, Use.value.declares t "x" level = false) ∧
  t.declaredWithin 0 ⟨0, 0⟩ = false ∧ Use.value.isOpaque t "x" 0 = true ∧
  Use.value.isOrdinary t (scopesAtUse t).2 (scopesAtUse t).1 "x" = true ∧
  Use.value.firstOpaque t "x" ((levelsAtUse t).take 7) = some 1 ∧
  t.declaredWithin 1 ⟨0, 0⟩ = true ∧ (t.verdict ⟨0, 0⟩).toOption = some (.clear [])
deriving Decidable

theorem opaquePair_hides : ∃ t, Table.ofSource opaquePair = .ok t ∧ t.LeadsToUse ∧ t.HidesUse := by
  have h : (Table.ofSource opaquePair).toOption.any
      (fun t => decide (t.LeadsToUse ∧ t.HidesUse)) = true := by
    decide +kernel
  obtain ⟨t, built, hall⟩ := Run.of_toOption_any h
  exact ⟨t, built, of_decide_eq_true hall⟩

theorem Table.HidesUse.split {t : Table} (h : t.HidesUse) :
    ∃ level, level.cls = some 0 ∧
      levelsAtUse t = (levelsAtUse t).take 6 ++ level :: (levelsAtUse t).drop 7 ∧
      (levelsAtUse t).take 7 = (levelsAtUse t).take 6 ++ [level] := by
  obtain ⟨level, hlevel, hcls⟩ := Option.bind_eq_some_iff.mp h.1
  refine ⟨level, hcls, ?_, ?_⟩
  · have hdrop : (levelsAtUse t).drop 6 = level :: (levelsAtUse t).drop 7 := by
      rw [List.drop_eq_getElem?_toList_append, hlevel]
      rfl
    rw [← hdrop, List.take_append_drop]
  · rw [List.take_add_one, hlevel]
    rfl

/-- At `x` the class `A` is foreign, opaque and without `x`, and no level inside declares it. Yet `f` is clear. -/
theorem foreign_opaque_looked_through :
    ∃ t scope st inner level beyond, Table.ofSource opaquePair = .ok t ∧
      t.Evaluates t.scopes ⟨0, 0⟩ .value hiddenName "x" scope st ∧
      st.scopes.levels scope = inner ++ level :: beyond ∧ level.cls = some 0 ∧
      t.declaredWithin 0 ⟨0, 0⟩ = false ∧ Use.value.isOpaque t "x" 0 = true ∧
      (∀ l ∈ inner ++ [level], Use.value.declares t "x" l = false) ∧
      Use.value.isOrdinary t st.scopes scope "x" = true ∧
      t.verdict ⟨0, 0⟩ = .ok (.clear []) := by
  obtain ⟨t, built, hleads, hhides⟩ := opaquePair_hides
  obtain ⟨level, hcls, hsplit, hinner⟩ := hhides.split
  obtain ⟨_, hundeclared, hforeign, hopaque, hordinary, _, _, hverdict⟩ := hhides
  refine ⟨t, _, _, _, level, _, built, hleads.evaluates (Table.source_of_ofSource built), hsplit,
    hcls, hforeign, hopaque, fun l hl => ?_, hordinary, Run.of_toOption_eq hverdict⟩
  rw [← hinner] at hl
  exact hundeclared l (List.mem_of_mem_take hl)

/-- The inner class is the one that decides: `x` is passed over. -/
theorem opaquePair_innermost_decides :
    ∃ t last, Table.ofSource opaquePair = .ok t ∧
      Use.value.firstOpaque t "x" ((levelsAtUse t).take 7) = some 1 ∧
      t.declaredWithin 1 ⟨0, 0⟩ = true ∧
      Subject.checkUse { table := t, method := ⟨0, 0⟩ } .value
        (Use.value.refer t (scopesAtUse t).2 (scopesAtUse t).1 "x") "x" hiddenName
        { scopes := (scopesAtUse t).2 } = .ok () last := by
  obtain ⟨t, built, hleads, hhides⟩ := opaquePair_hides
  obtain ⟨level, hcls, hsplit, hinner⟩ := hhides.split
  obtain ⟨_, hundeclared, hforeign, hopaque, hordinary, hfirst, hwithin, _⟩ := hhides
  obtain ⟨d, hd, _, hpassed⟩ := Table.access_past_opaque built .start
    (hleads.evaluates (Table.source_of_ofSource built)) hsplit hcls hforeign hopaque
    (fun l hl => hundeclared l (List.mem_of_mem_take (hinner ▸ hl))) hordinary
  rw [← hinner, hfirst] at hd
  cases hd
  have hbeyond : Use.value.bindsInstance t "x" ((levelsAtUse t).drop 7) = false := by
    have hnone : ((levelsAtUse t).drop 7).find? (Use.value.declares t "x") = none := by
      rw [List.find?_eq_none]
      intro l hl
      rw [hundeclared l (List.mem_of_mem_drop hl)]
      exact Bool.false_ne_true
    rw [Use.bindsInstance, hnone]
    rfl
  obtain ⟨last, hlast⟩ := hpassed (by simp [hwithin, hbeyond])
  exact ⟨t, last, built, hfirst, hwithin, hlast⟩

end StaticPromotion
