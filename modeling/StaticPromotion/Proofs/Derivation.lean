import StaticPromotion.Proofs.Fields
import StaticPromotion.Proofs.Positions

/-!
# The pass over a unit, as rules

What the first pass does to a table is said here by rules in the manner of a big-step semantics, one for each way in which it
goes on. A run that returns has a derivation, and what a run does is then proved by induction over its derivation, without a look
at the steps that only read.

* `Method.coded`          the declaration of a method that has a body;
* `Table.Revises`         fields and methods are added, and the classes and their places stay. `Table.Amends`: no method with a
                          body is among them; `Table.Notes`: and no class gets a name or a supertype;
* `Table.Names`           a class gets its name in the class around it or in the unit;
* `Table.Adds`, `Table.Registers`   one more method with a body, one more class;
* `Duty`                  what is left to do: some code, the rest of a plan, a class to enter, the rest of its members, the rest
                          of a unit;
* `Indexes duty t t'`     doing it takes the table `t` to `t'`;
* `indexes_of_ofSource`   every run has a derivation;
* `Table.Steadfast P`     every step keeps `P`, and so does every derivation;
* `originates_of_ofSource`   so every field of the table of a unit is traced back to its declaration.
-/

namespace StaticPromotion

variable {n : Node} {source : SourceUnit}

/-! ## what a step changes -/

def Method.coded (m : Method) : Option Node :=
  m.node.filter fun n => (n.child? "body").isSome

/-- what is settled about a class when it is entered -/
def ClassDecl.settled (d : ClassDecl) :
    (Option String × ClassKind × Bool) × Option Node × List ClassId × Option MethodId × ScopeId :=
  ((d.name, d.kind, d.isLocal), d.fixed)

/-- what is found from a class by name: the classes in it, and those it extends -/
def ClassDecl.links (d : ClassDecl) : Registry ClassId × List ClassId :=
  (d.memberTypes, d.supertypes)

namespace Table

def coded (t : Table) (m : MethodId) : Option Node :=
  (t.method m).coded

/-- a method of the class `c` that some member declares, if it has a declaration -/
def Presents (t : Table) (c : ClassId) (m : Method) : Prop :=
  ∀ n, m.node = some n → n ∈ t.membersOf c ∧ m.modifiers = n.modifiers.1 ∧
    m.isConstructor = (n.kind != "method_declaration")

structure Revises (t t' : Table) : Prop where
  source : t'.source = t.source
  scopes : t'.scopes = t.scopes
  declared : t'.declared = t.declared
  size : t'.classes.size = t.classes.size
  settled : ∀ k, (t'.decl k).settled = (t.decl k).settled
  fields : ∀ k, ∀ e ∈ (t'.decl k).fields, e ∈ (t.decl k).fields ∨ t.Originates k e
  methods : ∀ k, ∀ m ∈ (t'.decl k).methods, m ∈ (t.decl k).methods ∨ t.Presents k m

structure Amends (t t' : Table) : Prop extends Revises t t' where
  coded : ∀ m, t'.coded m = t.coded m

/-- no class gets a name or a supertype -/
structure Furnishes (t t' : Table) : Prop extends Revises t t' where
  topLevel : t'.topLevel = t.topLevel
  links : ∀ k, (t'.decl k).links = (t.decl k).links

structure Notes (t t' : Table) : Prop extends Amends t t', Furnishes t t'

/-- the method `id` of the class `c` is added, with the declaration `member` -/
structure Adds (c : ClassId) (member : Node) (id : MethodId) (t t' : Table) : Prop extends Furnishes t t' where
  owner : id.owner = c
  fresh : t.coded id = none
  added : t'.coded id = some member
  coded : ∀ m, m ≠ id → t'.coded m = t.coded m

/-- the class gets its name, in the class around it or in the unit -/
def enrolled (t : Table) (outer : Option ClassId) (c : ClassId) : Table :=
  match (t.decl c).properName, outer with
  | none, _ => t
  | some name, none => { t with topLevel := t.topLevel.put name c }
  | some name, some o =>
    { t with classes := t.classes.modify o fun d => { d with memberTypes := d.memberTypes.put name c } }

structure Names (outer : Option ClassId) (c : ClassId) (t t' : Table) : Prop extends Amends t t' where
  notInCode : (t.decl c).isLocal = false
  enrolled : t' = t.enrolled outer c

instance {t t' : Table} : Coe (t.Notes t') (t.Amends t') := ⟨Notes.toAmends⟩

instance {outer : Option ClassId} {c : ClassId} {t t' : Table} : CoeOut (Names outer c t t') (t.Amends t') := ⟨Names.toAmends⟩

/-- a class as it is entered, in code of `outer` -/
structure Newcomer (t : Table) (outer : Option CodeOwner) (d : ClassDecl) : Prop where
  outers : d.outers = t.outersOf (outer.map (·.cls))
  enclosing : d.enclosingMethod = outer.bind (·.method)
  fields : d.fields = []
  methods : ∀ m ∈ d.methods, m.node = none
  memberTypes : d.memberTypes = []
  /-- only the body of an enum constant has one already -/
  supertypes : ∀ k ∈ d.supertypes, d.outer = some k

/-- a class is added, in code of `outer` and below the scope `parent` -/
structure Registers (outer : Option CodeOwner) (node : Node) (body : Option Node) (parent : ScopeId)
    (t t' : Table) : Prop where
  source : t'.source = t.source
  scopes : ∃ shown, t'.scopes = (t.scopes.enterClass parent t.classes.size shown).2
  declared : t'.declared = (node.key, t.classes.size) :: t.declared
  size : t'.classes.size = t.classes.size + 1
  settled : ∀ k < t.classes.size, (t'.decl k).settled = (t.decl k).settled
  fixed : (t'.decl t.classes.size).fixed =
    (body, t.outersOf (outer.map (·.cls)), outer.bind (·.method), t.scopes.frames.size)
  coded : ∀ m, t'.coded m = t.coded m
  /-- the components of a record are added at once -/
  entry : ∃ d shown, Newcomer t outer d ∧ d.body = body ∧ (t.entered node d parent shown).Notes t'

/-- the name of a class declared by a statement, for the code after it -/
def nameLocal (t : Table) (scope : ScopeId) (c : ClassId) : Table :=
  match (t.decl c).properName with
  | none => t
  | some name => { t with scopes := t.scopes.declareType scope name c }

end Table

/-! ## rules -/

inductive Duty where
  | code (owner : CodeOwner) (node : Node) (scope : ScopeId)
  | steps (owner : CodeOwner) (here inner : ScopeId) (rest : List Step)
  /-- to enter a class and go over its members -/
  | cls (outer : Option CodeOwner) (node : Node) (body : Option Node) (parent : ScopeId)
  | members (c : ClassId) (rest : List Node)
  | member (c : ClassId) (node : Node)
  /-- code in the class but in none of its methods, each in a scope of its own -/
  | own (c : ClassId) (codes : List Node)
  | unit (rest : List Node)

/-- the values of the declarators in a field declaration -/
def Node.initializers (member : Node) : List Node :=
  (member.childrenAt "declarator").flatMap fun d => (d.child? "value").toList

/-- the identifiers that the parameters of a method declare -/
def Node.methodNames (member : Node) : List Node :=
  ((member.child? "parameters").map Node.parameterNames).getD []

/-- whether going over a member only amends the table -/
def Node.isIdle (member : Node) : Bool :=
  match Table.MemberKind.ofKind member.kind with
  | .method => (member.child? "body").isNone
  | .other => true
  | _ => false

open Table in
inductive Indexes : Duty → Table → Table → Prop
  | code {owner : CodeOwner} {node : Node} {scope : ScopeId} {t t' : Table}
      (steps : Indexes (.steps owner scope scope node.plan) t t') :
      Indexes (.code owner node scope) t t'
  | done {owner : CodeOwner} {here inner : ScopeId} {t : Table} :
      Indexes (.steps owner here inner []) t t
  | quiet {owner : CodeOwner} {here inner : ScopeId} {step : Step} {rest : List Step}
      {p : Progress} {t t' : Table} (perform : step.perform t.source here inner t.scopes = .ok p)
      (idle : p.action = .none ∨ ∃ name, p.action = .caseConstant name here)
      (others : Indexes (.steps owner here p.inner rest) { t with scopes := p.scopes } t') :
      Indexes (.steps owner here inner (step :: rest)) t t'
  | visit {owner : CodeOwner} {here inner sc : ScopeId} {part : Node} {place : Place}
      {rest : List Step} {s : Scopes} {t t₁ t' : Table}
      (located : place.locate t.source here inner t.scopes = .ok (sc, s))
      (first : Indexes (.code owner part sc) { t with scopes := s } t₁)
      (others : Indexes (.steps owner here inner rest) t₁ t') :
      Indexes (.steps owner here inner (.visit part place :: rest)) t t'
  | localClass {owner : CodeOwner} {here inner : ScopeId} {declaration : Node}
      {rest : List Step} {t t₁ t' : Table}
      (first : Indexes
        (.cls (some owner) declaration (declaration.child? "body") (t.scopes.snapshot here).1)
        { t with scopes := (t.scopes.snapshot here).2 } t₁)
      (others : Indexes (.steps owner here inner rest) (t₁.nameLocal here t.classes.size) t')
      (inCode : (t₁.decl t.classes.size).isLocal = true) :
      Indexes (.steps owner here inner (.localClass declaration :: rest)) t t'
  | anonymousClass {owner : CodeOwner} {here inner : ScopeId} {creation body : Node}
      {rest : List Step} {t t₁ t' : Table}
      (first : Indexes (.cls (some owner) creation (some body) (t.scopes.snapshot here).1)
        { t with scopes := (t.scopes.snapshot here).2 } t₁)
      (others : Indexes (.steps owner here inner rest) t₁ t')
      (inCode : (t₁.decl t.classes.size).isLocal = true) :
      Indexes (.steps owner here inner (.anonymousClass creation body :: rest)) t t'
  | cls {outer : Option CodeOwner} {node : Node} {body : Option Node} {parent : ScopeId}
      {t t₁ t' : Table} (registers : Registers outer node body parent t t₁)
      (members : Indexes (.members t.classes.size ((body.map memberNodes).getD [])) t₁ t') :
      Indexes (.cls outer node body parent) t t'
  | noMembers {c : ClassId} {t : Table} : Indexes (.members c []) t t
  | members {c : ClassId} {member : Node} {rest : List Node} {t t₁ t' : Table}
      (first : Indexes (.member c member) t t₁) (others : Indexes (.members c rest) t₁ t') :
      Indexes (.members c (member :: rest)) t t'
  | idle {c : ClassId} {member : Node} {t t' : Table} (isIdle : member.isIdle = true)
      (amends : t.Notes t') : Indexes (.member c member) t t'
  | fields {c : ClassId} {member : Node} {t t' : Table}
      (kind : MemberKind.ofKind member.kind = .field)
      (codes : Indexes (.own c member.initializers) t t') : Indexes (.member c member) t t'
  | method {c : ClassId} {member body : Node} {id : MethodId} {scope : ScopeId} {label : String}
      {components : List String} {s : Scopes} {t t₁ t' : Table}
      (kind : MemberKind.ofKind member.kind = .method) (hasBody : member.child? "body" = some body)
      (adds : Adds c member id t t₁)
      (opened : t₁.scopes.childDeclaring t₁.source (t₁.decl c).scope label member.methodNames
        = .ok (scope, s))
      (plain : member.kind = "method_declaration" → components = [])
      (code : Indexes (.code ⟨c, some id⟩ body scope)
        { t₁ with scopes := s.declareAll scope components } t') :
      Indexes (.member c member) t t'
  | constant {c : ClassId} {member : Node} {t t' : Table}
      (kind : MemberKind.ofKind member.kind = .constant) (noBody : member.child? "body" = none)
      (codes : Indexes (.own c (member.child? "arguments").toList) t t') :
      Indexes (.member c member) t t'
  | constantBody {c : ClassId} {member body : Node} {t t₁ t' : Table}
      (kind : MemberKind.ofKind member.kind = .constant)
      (hasBody : member.child? "body" = some body)
      (codes : Indexes (.own c (member.child? "arguments").toList) t t₁)
      (nested : Indexes (.cls (some ⟨c, none⟩) member (some body) (t₁.decl c).scope) t₁ t')
      (inCode : (t'.decl t₁.classes.size).isLocal = true) :
      Indexes (.member c member) t t'
  | block {c : ClassId} {member : Node} {t t' : Table}
      (kind : MemberKind.ofKind member.kind = .block ∨
        MemberKind.ofKind member.kind = .staticBlock)
      (code : Indexes (.code ⟨c, none⟩ member (t.decl c).scope) t t') :
      Indexes (.member c member) t t'
  | nested {c : ClassId} {member : Node} {flavour : ClassKind} {t t₁ t' : Table}
      (kind : MemberKind.ofKind member.kind = .nested flavour)
      (nested : Indexes (.cls (some ⟨c, none⟩) member (member.child? "body") (t.decl c).scope) t t₁)
      (amends : Names (some c) t.classes.size t₁ t') : Indexes (.member c member) t t'
  | noCode {c : ClassId} {t t' : Table} (amends : t.Notes t') : Indexes (.own c []) t t'
  | own {c : ClassId} {code : Node} {rest : List Node} {label : String} {t t₁ t₂ t' : Table}
      (amends : t.Notes t₁)
      (first : Indexes (.code ⟨c, none⟩ code (t₁.scopes.child (t₁.decl c).scope label).1)
        { t₁ with scopes := (t₁.scopes.child (t₁.decl c).scope label).2 } t₂)
      (others : Indexes (.own c rest) t₂ t') : Indexes (.own c (code :: rest)) t t'
  | finished {t : Table} : Indexes (.unit []) t t
  | aside {node : Node} {rest : List Node} {t t₁ t' : Table} (amends : t.Notes t₁)
      (others : Indexes (.unit rest) t₁ t') : Indexes (.unit (node :: rest)) t t'
  | topLevel {node : Node} {flavour : ClassKind} {rest : List Node} {t t₁ t₂ t' : Table}
      (kind : ClassKind.ofKind? node.kind = some flavour)
      (first : Indexes (.cls none node (node.child? "body") Scopes.rootId) t t₁)
      (amends : Names none t.classes.size t₁ t₂) (others : Indexes (.unit rest) t₂ t') :
      Indexes (.unit (node :: rest)) t t'

namespace Table

variable {t t' t'' : Table} {c : ClassId}

variable {m : Method} {member node : Node} {outer : Option CodeOwner} {parent : ScopeId}

/-! ## amendments -/

theorem Revises.refl (t : Table) : t.Revises t :=
  ⟨rfl, rfl, rfl, rfl, fun _ => rfl, fun _ _ he => .inl he, fun _ _ hm => .inl hm⟩

theorem Revises.originates (h : t.Revises t') {e : String × Field} (he : t'.Originates c e) : t.Originates c e :=
  he.keep h.source.symm (congrArg (·.1.2.1) (h.settled c).symm) (congrArg (·.2.1) (h.settled c).symm)

theorem Revises.presents (h : t.Revises t') (hm : t'.Presents c m) : t.Presents c m := by
  rw [Presents, membersOf, show (t'.decl c).body = (t.decl c).body from congrArg (·.2.1) (h.settled c)] at hm
  exact hm

theorem Revises.trans (h : t.Revises t') (h' : t'.Revises t'') : t.Revises t'' where
  source := h'.source.trans h.source
  scopes := h'.scopes.trans h.scopes
  declared := h'.declared.trans h.declared
  size := h'.size.trans h.size
  settled k := (h'.settled k).trans (h.settled k)
  fields k e he := (h'.fields k e he).elim (h.fields k e) fun hnew => .inr (h.originates hnew)
  methods k m hm := (h'.methods k m hm).elim (h.methods k m) fun hnew => .inr (h.presents hnew)

theorem Amends.refl (t : Table) : t.Amends t :=
  ⟨.refl t, fun _ => rfl⟩

theorem Amends.trans (h : t.Amends t') (h' : t'.Amends t'') : t.Amends t'' :=
  ⟨h.toRevises.trans h'.toRevises, fun m => (h'.coded m).trans (h.coded m)⟩

theorem Notes.refl (t : Table) : t.Notes t :=
  ⟨.refl t, rfl, fun _ => rfl⟩

theorem Notes.trans (h : t.Notes t') (h' : t'.Notes t'') : t.Notes t'' :=
  ⟨h.toAmends.trans h'.toAmends, h'.topLevel.trans h.topLevel, fun k => (h'.links k).trans (h.links k)⟩

theorem amends_of_classes (hsource : t'.source = t.source) (hclasses : t'.classes = t.classes)
    (hscopes : t'.scopes = t.scopes) (hdeclared : t'.declared = t.declared) : t.Amends t' := by
  have hdecl : ∀ k, t'.decl k = t.decl k := fun k => by rw [decl, decl, hclasses]
  refine ⟨⟨hsource, hscopes, hdeclared, by rw [hclasses], fun k => by rw [hdecl], fun k e he => ?_,
    fun k m hm => ?_⟩, fun m => ?_⟩
  · exact .inl (hdecl k ▸ he)
  · exact .inl (hdecl k ▸ hm)
  · rw [coded, coded, method, method, hdecl]

theorem notes_of_classes (hsource : t'.source = t.source) (hclasses : t'.classes = t.classes)
    (hscopes : t'.scopes = t.scopes) (hdeclared : t'.declared = t.declared) (htop : t'.topLevel = t.topLevel) :
    t.Notes t' :=
  ⟨amends_of_classes hsource hclasses hscopes hdeclared, htop, fun k => by rw [decl, decl, hclasses]⟩

/-- what a change of one class keeps, all classes keep -/
theorem modify_keeps {β : Type} (f : ClassDecl → β) (t : Table) (c : ClassId) {change : ClassDecl → ClassDecl}
    (h : ∀ d, f (change d) = f d) (k : ClassId) :
    f (decl { t with classes := t.classes.modify c change } k) = f (t.decl k) := by
  by_cases hk : k = c
  · rcases Nat.lt_or_ge c t.classes.size with hc | hc
    · rw [hk, decl_modify_self t change hc, h]
    · rw [hk, decl_of_le _ (by rw [Array.size_modify]; exact hc), decl_of_le t hc]
  · rw [decl_modify_of_ne t change hk]

section
variable (t) (c) {change : ClassDecl → ClassDecl} (hsettled : ∀ d, (change d).settled = d.settled)
include hsettled

theorem revises_modify
    (hfields : ∀ e ∈ (change (t.decl c)).fields, e ∈ (t.decl c).fields ∨ t.Originates c e)
    (hmethods : ∀ m ∈ (change (t.decl c)).methods, m ∈ (t.decl c).methods ∨ t.Presents c m) :
    t.Revises { t with classes := t.classes.modify c change } := by
  have hdecl : ∀ k, decl { t with classes := t.classes.modify c change } k = t.decl k ∨
      k = c ∧ decl { t with classes := t.classes.modify c change } k = change (t.decl c) := by
    intro k
    by_cases hk : k = c
    · rcases Nat.lt_or_ge c t.classes.size with hc | hc
      · exact .inr ⟨hk, by rw [hk, decl_modify_self t change hc]⟩
      · exact .inl (by rw [hk, decl_of_le _ (by rw [Array.size_modify]; exact hc), decl_of_le t hc])
    · exact .inl (decl_modify_of_ne t change hk)
  refine ⟨rfl, rfl, rfl, Array.size_modify, modify_keeps ClassDecl.settled t c hsettled, fun k e he => ?_,
    fun k m hm => ?_⟩
  · rcases hdecl k with hsame | ⟨rfl, hchanged⟩
    · exact .inl (hsame ▸ he)
    · exact hfields e (hchanged ▸ he)
  · rcases hdecl k with hsame | ⟨rfl, hchanged⟩
    · exact .inl (hsame ▸ hm)
    · exact hmethods m (hchanged ▸ hm)

theorem notes_modify (hlinks : ∀ d, (change d).links = d.links)
    (hfields : ∀ e ∈ (change (t.decl c)).fields, e ∈ (t.decl c).fields ∨ t.Originates c e)
    (hmethods : ∀ m ∈ (change (t.decl c)).methods, m ∈ (t.decl c).methods ∨ t.Presents c m)
    (hcoded : ∀ d i, ((change d).methods.getD i default).coded = (d.methods.getD i default).coded) :
    t.Notes { t with classes := t.classes.modify c change } :=
  ⟨⟨revises_modify t c hsettled hfields hmethods, fun m =>
    modify_keeps (fun d => (d.methods.getD m.index default).coded) t c (fun d => hcoded d m.index) m.owner⟩,
    rfl, modify_keeps ClassDecl.links t c hlinks⟩

theorem amends_modify (hfields : ∀ d, (change d).fields = d.fields)
    (hmethods : ∀ d, (change d).methods = d.methods) :
    t.Amends { t with classes := t.classes.modify c change } :=
  ⟨revises_modify t c hsettled (fun _ he => .inl (hfields _ ▸ he)) fun _ hm => .inl (hmethods _ ▸ hm), fun m =>
    modify_keeps (fun d => (d.methods.getD m.index default).coded) t c (fun d => by rw [hmethods]) m.owner⟩

end

theorem amends_enrolled (t : Table) (outer : Option ClassId) (c : ClassId) : t.Amends (t.enrolled outer c) := by
  unfold enrolled
  split
  · exact .refl t
  · exact amends_of_classes rfl rfl rfl rfl
  · exact amends_modify t _ (fun _ => rfl) (fun _ => rfl) fun _ => rfl

theorem names_enrolled (outer : Option ClassId) (hlocal : (t.decl c).isLocal = false) :
    Names outer c t (t.enrolled outer c) :=
  ⟨amends_enrolled t outer c, hlocal, rfl⟩

theorem getD_push (xs : Array Method) (x : Method) (i : Nat) :
    (xs.push x).getD i default = if i = xs.size then x else xs.getD i default := by
  rw [Array.getD_eq_getD_getElem?, Array.getElem?_push, Array.getD_eq_getD_getElem?]
  split
  · rfl
  · rfl

theorem getD_size (xs : Array Method) : xs.getD xs.size default = default := by
  rw [Array.getD_eq_getD_getElem?, Array.getElem?_eq_none (Nat.le_refl _)]
  rfl

theorem coded_push (xs : Array Method) {x : Method} (h : x.coded = none) (i : Nat) :
    ((xs.push x).getD i default).coded = (xs.getD i default).coded := by
  rw [getD_push]
  split
  · rename_i hi
    rw [hi, getD_size, h]
    rfl
  · rfl

/-! ## fields and methods -/

theorem builds_text {Q : String → Table → Prop} (h : ∀ text, t.source.text n = .ok text → Q text t) :
    Builds t (buildText n) Q :=
  (builds_get (builds_lift h)).bind

theorem builds_line {Q : Nat → Table → Prop} (h : Q (t.source.line n) t) : Builds t (buildLine n) Q :=
  (builds_get (builds_pure h)).bind

theorem builds_openScope {make : Scopes → ScopeId × Scopes} {Q : ScopeId → Table → Prop}
    (h : Q (make t.scopes).1 { t with scopes := (make t.scopes).2 }) : Builds t (openScope make) Q := by
  intro sc t' hx
  cases hx
  exact h

theorem builds_addField {field : Field} (h : t.Originates c (field.name, field)) :
    Builds t (addField c field) fun _ t' => t.Notes t' :=
  builds_modify (notes_modify t c (fun _ => rfl) (fun _ => rfl)
    (fun e he => (Registry.mem_put he).imp_right fun (heq : e = (field.name, field)) => heq ▸ h)
    (fun _ hm => .inl hm) fun _ _ => rfl)

theorem builds_declareField {declarator : Node} (hmember : member ∈ t.membersOf c)
    (hdeclarator : declarator ∈ member.declarators) :
    Builds t (declareField c (member.declaresStatic (t.decl c).kind) declarator) fun _ t' => t.Notes t' := by
  unfold declareField
  split
  · rename_i nameNode hname
    refine (builds_text fun name htext => ?_).bind
    refine (builds_line ?_).bind
    refine builds_addField ⟨rfl, rfl, .inr ⟨member, hmember, ?_, rfl⟩⟩
    exact ⟨declarator, hdeclarator, nameNode, hname, htext, rfl⟩
  · exact builds_pure (.refl t)

theorem presents_of_push {methods : Array Method} (h : t.Presents c m) :
    ∀ m' ∈ methods.push m, m' ∈ methods ∨ t.Presents c m' := by
  intro m' hm'
  rcases Array.mem_push.mp hm' with hold | rfl
  · exact .inl hold
  · exact .inr h

theorem builds_addMethod_bare (hm : m.coded = none) (hpresents : t.Presents c m) :
    Builds t (addMethod c m) fun _ t' => t.Notes t' := by
  refine (builds_get ?_).bind
  refine (builds_modify ?_).bind
  exact builds_pure (notes_modify t c (fun _ => rfl) (fun _ => rfl) (fun _ he => .inl he)
    (presents_of_push hpresents) fun d i => coded_push d.methods hm i)

theorem builds_addMethod (hc : c < t.classes.size) (hm : m.coded = some member) (hpresents : t.Presents c m) :
    Builds t (addMethod c m) fun id t' => Adds c member id t t' := by
  refine (builds_get ?_).bind
  refine (builds_modify ?_).bind
  have hself : ∀ i, ((decl { t with classes := t.classes.modify c fun d =>
      { d with methods := d.methods.push m } } c).methods.getD i default) =
      if i = (t.decl c).methods.size then m else (t.decl c).methods.getD i default := by
    intro i
    rw [decl_modify_self t _ hc, getD_push]
  refine builds_pure ⟨⟨revises_modify t c (fun _ => rfl) (fun _ he => .inl he) (presents_of_push hpresents),
    rfl, modify_keeps ClassDecl.links t c fun _ => rfl⟩, rfl, ?_, ?_, ?_⟩
  · show ((t.decl c).methods.getD _ default).coded = none
    rw [getD_size]
    rfl
  · rw [coded, method, hself, if_pos rfl, hm]
  · intro m' hne
    rw [coded, coded, method, method]
    by_cases howner : m'.owner = c
    · rw [howner, hself, if_neg]
      intro hindex
      apply hne
      cases m'
      simp only at howner hindex
      rw [howner, hindex]
    · rw [decl_modify_of_ne t _ howner]

theorem builds_declareComponents (hrecord : (t.decl c).kind = .record) (node : Node) :
    Builds t (declareComponents c node) fun _ t' => t.Notes t' := by
  refine builds_forM (I := fun _ t₁ => t.Notes t₁) (.refl t) fun _ param t₁ _ hnotes => ?_
  unfold declareComponent
  split
  · refine ((quiet_buildText _).builds fun name => ?_).bind
    refine ((quiet_buildLine _).builds fun line => ?_).bind
    have hkind : (t₁.decl c).kind = .record := (congrArg (·.1.2.1) (hnotes.settled c)).trans hrecord
    have horiginates : t₁.Originates c (name, { name, owner := c, isStatic := false, line }) :=
      ⟨rfl, rfl, .inl ⟨hkind, rfl⟩⟩
    refine ((builds_addField horiginates).mono fun _ t₂ hfield => ?_).bind
    refine ((builds_addMethod_bare rfl fun n hn => ?_).mono fun _ t₃ hmethod => ?_).bind
    · cases hn
    · exact builds_pure ((hnotes.trans hfield).trans hmethod)
  · exact builds_pure hnotes

theorem quiet_methodName (c : ClassId) (node : Node) : Quiet (methodName c node) := by
  unfold methodName
  split
  · exact quiet_buildText _
  · exact quiet_get.bind fun _ => quiet_pure _

theorem builds_makeMethod (hmember : member ∈ t.membersOf c) :
    Builds t (makeMethod c member) fun m t' => t' = t ∧ m.node = some member ∧ t.Presents c m := by
  refine (builds_get ?_).bind
  refine ((quiet_mapM (fun type => (quiet_lift _).bind fun _ => quiet_pure _) _).builds
    fun paramTypes => ?_).bind
  refine ((quiet_methodName c member).builds fun name => ?_).bind
  refine ((quiet_buildLine _).builds fun line => ?_).bind
  refine builds_pure ⟨rfl, rfl, fun n hn => ?_⟩
  cases hn
  exact ⟨hmember, rfl, rfl⟩

/-! ## entering a class -/

theorem node_of_mem_implicitMethods {kind : ClassKind} (h : m ∈ implicitMethods kind) : m.node = none := by
  cases kind with
  | enumeration =>
    rcases Array.mem_toList_iff.mpr h with _ | ⟨_, _ | ⟨_, h⟩⟩
    · rfl
    · rfl
    · cases h
  | _ => cases Array.mem_toList_iff.mpr h

theorem Registers.notes {body : Option Node} (h : Registers outer node body parent t t') (h' : t'.Notes t'') :
    Registers outer node body parent t t'' where
  source := h'.source.trans h.source
  scopes := by
    obtain ⟨shown, hscopes⟩ := h.scopes
    exact ⟨shown, h'.scopes.trans hscopes⟩
  declared := h'.declared.trans h.declared
  size := h'.size.trans h.size
  settled k hk := (h'.settled k).trans (h.settled k hk)
  fixed := (congrArg (·.2) (h'.settled _)).trans h.fixed
  coded m := (h'.coded m).trans (h.coded m)
  entry := by
    obtain ⟨d, shown, hd, hbody, hnotes⟩ := h.entry
    exact ⟨d, shown, hd, hbody, hnotes.trans h'⟩

theorem builds_registers {d : ClassDecl} (hd : Newcomer t outer d) :
    Builds t (register node d parent) fun c t' => c = t.classes.size ∧
      Registers outer node d.body parent t t' ∧ (t'.decl t.classes.size).settled.1 = d.settled.1 := by
  refine builds_register fun shown => ⟨rfl, ⟨rfl, ⟨shown, rfl⟩, rfl, size_entered .., ?_, ?_, ?_,
    d, shown, hd, rfl, .refl _⟩, ?_⟩
  · intro k hk
    rw [decl_entered_of_lt t node d parent shown hk]
  · rw [decl_entered_self, ClassDecl.fixed, hd.outers, hd.enclosing]
  · intro m
    rw [coded, coded, method, method]
    rcases Nat.lt_trichotomy m.owner t.classes.size with hlt | heq | hgt
    · rw [decl_entered_of_lt t node d parent shown hlt]
    · rw [heq, decl_entered_self, decl_of_le t (Nat.le_refl _)]
      show (d.methods.getD m.index default).coded = _
      rw [Array.getD_eq_getD_getElem?]
      cases hmethod : d.methods[m.index]? with
      | none => rfl
      | some found =>
        have hnode := hd.methods found (Array.mem_of_getElem? hmethod)
        show found.coded = none
        rw [Method.coded, hnode]
        rfl
    · rw [decl_of_le _ (by rw [size_entered]; exact hgt), decl_of_le t (Nat.le_of_lt hgt)]
  · rw [decl_entered_self]
    rfl

theorem builds_declareClass (node : Node) (kind : ClassKind) (outer : Option CodeOwner)
    (isLocal : Bool) (parent : ScopeId) :
    Builds t (declareClass node kind outer isLocal parent) fun c t' => c = t.classes.size ∧
      Registers outer node (node.child? "body") parent t t' ∧ (t'.decl c).isLocal = isLocal := by
  have henter : Builds t (enterClass node kind outer isLocal parent) fun c t' => c = t.classes.size ∧
      Registers outer node (node.child? "body") parent t t' ∧
        ∃ name, (t'.decl t.classes.size).settled.1 = (name, kind, isLocal) := by
    refine (builds_get ?_).bind
    refine ((quiet_optionMapM quiet_buildText _).builds fun name => ?_).bind
    refine ((quiet_optionMapM quiet_buildText _).builds fun superclass => ?_).bind
    refine ((quiet_mapM quiet_buildText _).builds fun interfaces => ?_).bind
    refine ((quiet_buildLine node).builds fun line => ?_).bind
    refine (builds_registers ⟨rfl, rfl, rfl, fun m hm => node_of_mem_implicitMethods hm, rfl, fun _ hk => ?_⟩).mono
      fun c t' h => ⟨h.1, h.2.1, name, h.2.2⟩
    exact (List.not_mem_nil hk).elim
  refine (henter.mono fun c t₁ hentered => ?_).bind
  obtain ⟨rfl, hregisters, name, hsettled⟩ := hentered
  have hlocal : (t₁.decl t.classes.size).isLocal = isLocal := congrArg (·.2.2) hsettled
  split
  · rename_i hrecord
    have hkind : (t₁.decl t.classes.size).kind = .record := (congrArg (·.2.1) hsettled).trans (eq_of_beq hrecord)
    refine ((builds_declareComponents hkind node).mono fun _ t₂ hnotes => ?_).bind
    exact builds_pure ⟨rfl, hregisters.notes hnotes, (congrArg (·.1.2.2) (hnotes.settled _)).trans hlocal⟩
  · exact builds_pure ⟨rfl, hregisters, hlocal⟩

theorem builds_declareAnonymous (node body : Node) (owner : CodeOwner) (parent : ScopeId)
    {supertype : Option ClassId} (hsupertype : ∀ k ∈ supertype, k = owner.cls) :
    Builds t (declareAnonymous node body owner parent supertype) fun c t' => c = t.classes.size ∧
      Registers (some owner) node (some body) parent t t' ∧ (t'.decl c).isLocal = true := by
  refine (builds_get ?_).bind
  refine ((quiet_optionMapM quiet_buildText _).builds fun superclass => ?_).bind
  refine ((quiet_buildLine node).builds fun line => ?_).bind
  refine (builds_registers ⟨rfl, rfl, rfl, fun m hm => (Array.not_mem_empty m hm).elim, rfl, fun k hk => ?_⟩).mono
    fun c t' h => ⟨h.1, h.2.1, h.1 ▸ congrArg (·.2.2) h.2.2⟩
  rw [hsupertype k (Option.mem_toList.mp hk)]
  rfl

/-! ## what every derivation keeps -/

/-- classes, levels and declared nodes are added, and what is settled stays so -/
structure Stays (t t' : Table) : Prop where
  source : t'.source = t.source
  size : t.classes.size ≤ t'.classes.size
  settled : ∀ k < t.classes.size, (t'.decl k).settled = (t.decl k).settled
  scopes : t.scopes.Grows t'.scopes
  declared : t.declared <:+ t'.declared

theorem Stays.refl (t : Table) : t.Stays t :=
  ⟨rfl, Nat.le_refl _, fun _ _ => rfl, .refl _, List.suffix_rfl⟩

theorem Stays.trans (h : t.Stays t') (h' : t'.Stays t'') : t.Stays t'' where
  source := h'.source.trans h.source
  size := Nat.le_trans h.size h'.size
  settled k hk := (h'.settled k (Nat.lt_of_lt_of_le hk h.size)).trans (h.settled k hk)
  scopes := h.scopes.trans h'.scopes
  declared := h.declared.trans h'.declared

theorem Stays.body (h : t.Stays t') (hc : c < t.classes.size) : (t'.decl c).body = (t.decl c).body :=
  congrArg (·.2.1) (h.settled c hc)

theorem Stays.kind (h : t.Stays t') (hc : c < t.classes.size) : (t'.decl c).kind = (t.decl c).kind :=
  congrArg (·.1.2.1) (h.settled c hc)

theorem Stays.isLocal (h : t.Stays t') (hc : c < t.classes.size) : (t'.decl c).isLocal = (t.decl c).isLocal :=
  congrArg (·.1.2.2) (h.settled c hc)

theorem Stays.mem_membersOf (h : t.Stays t') (hmember : member ∈ t.membersOf c) :
    member ∈ t'.membersOf c := by
  rw [membersOf, h.body (lt_of_mem_membersOf hmember)]
  exact hmember

theorem stays_setScopes {s : Scopes} (h : t.scopes.Grows s) : t.Stays { t with scopes := s } :=
  ⟨rfl, Nat.le_refl _, fun _ _ => rfl, h, List.suffix_rfl⟩

theorem Revises.stays (h : t.Revises t') : t.Stays t' :=
  ⟨h.source, Nat.le_of_eq h.size.symm, fun k _ => h.settled k, h.scopes ▸ .refl _,
    h.declared ▸ List.suffix_rfl⟩

theorem Registers.stays {body : Option Node} (h : Registers outer node body parent t t') : t.Stays t' := by
  obtain ⟨shown, hscopes⟩ := h.scopes
  refine ⟨h.source, h.size ▸ Nat.le_succ _, h.settled, ?_, ?_⟩
  · rw [hscopes]
    exact Scopes.grows_add _ _
  · rw [h.declared]
    exact List.suffix_cons _ _

end Table

namespace Scopes

theorem grows_snapshot (s : Scopes) (id : ScopeId) : s.Grows (s.snapshot id).2 :=
  ((Keeps.refl s).snapshot id).grows

theorem grows_perform {s : Scopes} {here inner : ScopeId} {step : Step} {p : Progress}
    (h : step.perform source here inner s = .ok p) : s.Grows p.scopes :=
  s.invariant_grows.perform (.refl s) h

theorem grows_locate {s s' : Scopes} {here inner sc : ScopeId} {place : Place}
    (h : place.locate source here inner s = .ok (sc, s')) : s.Grows s' :=
  s.invariant_grows.locate (.refl s) h

theorem grows_childDeclaring {s s' : Scopes} {parent sc : ScopeId} {label : String} {names : List Node}
    (h : s.childDeclaring source parent label names = .ok (sc, s')) : s.Grows s' :=
  s.invariant_grows.childDeclaring (.refl s) h

end Scopes

open Table

variable {t t' : Table} {c : ClassId}

/-- a property of tables that every step of the pass keeps: what adds to the scopes, enters a class or amends the table -/
structure Table.Steadfast (P : Table → Prop) : Prop where
  scopes : ∀ {t : Table} {s : Scopes}, t.scopes.Grows s → P t → P { t with scopes := s }
  registers : ∀ {outer : Option CodeOwner} {node : Node} {body : Option Node} {parent : ScopeId} {t t' : Table},
    Registers outer node body parent t t' → P t → P t'
  revises : ∀ {t t' : Table}, t.Revises t' → P t → P t'

theorem Table.Steadfast.indexes {P : Table → Prop} (hP : Steadfast P) {duty : Duty} (h : Indexes duty t t') (ht : P t) :
    P t' := by
  induction h with
  | done | noMembers | finished => exact ht
  | code _ ih | fields _ _ ih | constant _ _ _ ih | block _ _ ih => exact ih ht
  | quiet perform _ _ ih => exact ih (hP.scopes (Scopes.grows_perform perform) ht)
  | visit located _ _ ihfirst ihothers => exact ihothers (ihfirst (hP.scopes (Scopes.grows_locate located) ht))
  | localClass _ _ _ ihfirst ihothers =>
    have hfirst := ihfirst (hP.scopes (Scopes.grows_snapshot _ _) ht)
    refine ihothers ?_
    unfold nameLocal
    split
    · exact hfirst
    · exact hP.scopes (Scopes.grows_declareType _ _ _ _) hfirst
  | anonymousClass _ _ _ ihfirst ihothers => exact ihothers (ihfirst (hP.scopes (Scopes.grows_snapshot _ _) ht))
  | members _ _ ihfirst ihothers | constantBody _ _ _ _ _ ihfirst ihothers => exact ihothers (ihfirst ht)
  | cls registers _ ih => exact ih (hP.registers registers ht)
  | idle _ amends | noCode amends => exact hP.revises amends.toRevises ht
  | method _ _ adds opened _ _ ih =>
    refine ih (hP.scopes ?_ (hP.revises adds.toRevises ht))
    exact (Scopes.grows_childDeclaring opened).trans (Scopes.grows_declareAll _ _ _)
  | nested _ _ amends ih => exact hP.revises amends.toRevises (ih ht)
  | own amends _ _ ihfirst ihothers =>
    exact ihothers (ihfirst (hP.scopes (Scopes.grows_child _ _ _) (hP.revises amends.toRevises ht)))
  | aside amends _ ih => exact ih (hP.revises amends.toRevises ht)
  | topLevel _ _ amends _ ihfirst ihothers => exact ihothers (hP.revises amends.toRevises (ihfirst ht))

theorem Indexes.stays {duty : Duty} (h : Indexes duty t t') : t.Stays t' := by
  have hsteadfast : Steadfast t.Stays :=
    ⟨fun hs ht => ht.trans (stays_setScopes hs), fun hr ht => ht.trans hr.stays, fun hr ht => ht.trans hr.stays⟩
  exact hsteadfast.indexes h (.refl t)

/-! ## every run has a derivation -/

/-- the part of the pass that a region asks for -/
def Table.Region.duty : Region → Duty
  | .code owner node scope => .code owner node scope
  | .members c body => .members c (memberNodes body)

/-- the members are those of the class -/
def Table.Region.Own (t : Table) : Region → Prop
  | .code _ _ _ => True
  | .members c body => (t.decl c).body = some body

/-- `index` has a derivation for every region of code, and for the members of every class -/
def Derives (index : Region → Build Unit) : Prop :=
  ∀ (t : Table) (region : Region), region.Own t → Builds t (index region) fun _ t' => Indexes region.duty t t'

theorem Step.Of.kind {declaration : Node} (h : (Step.localClass declaration).Of n) :
    ∃ kind, ClassKind.ofKind? declaration.kind = some kind := by
  obtain ⟨rfl, kind, hconstruct⟩ := h
  have hshaped : Construct.ofKind declaration.kind = .classDeclaration kind := hconstruct
  unfold Construct.ofKind at hshaped
  split at hshaped
  · rename_i special hspecial
    unfold Construct.ofSpecial? at hspecial
    rw [hshaped] at hspecial
    split at hspecial <;> cases hspecial
  · rename_i flavour _ hflavour
    exact ⟨flavour, hflavour⟩
  · split at hshaped
    · cases hshaped
    · split at hshaped <;> cases hshaped

theorem Indexes.amend {codes : List Node} {t₁ : Table} (h : t.Notes t₁)
    (hown : Indexes (.own c codes) t₁ t') : Indexes (.own c codes) t t' := by
  cases hown with
  | noCode amends => exact .noCode (h.trans amends)
  | own amends first others => exact .own (h.trans amends) first others

theorem Indexes.own_append {codes codes' : List Node} {t₁ : Table} (h : Indexes (.own c codes) t t₁)
    (h' : Indexes (.own c codes') t₁ t') : Indexes (.own c (codes ++ codes')) t t' := by
  induction codes generalizing t with
  | nil =>
    cases h with
    | noCode amends => exact h'.amend amends
  | cons code codes ih =>
    cases h with
    | own amends first others => exact .own amends first (ih others)

section
variable {index : Region → Build Unit} (hindex : Derives index) {member : Node}
include hindex

theorem Derives.code (owner : CodeOwner) (node : Node) (scope : ScopeId) :
    Builds t (index (.code owner node scope)) fun _ t' => Indexes (.code owner node scope) t t' :=
  hindex t (.code owner node scope) trivial

theorem Derives.builds_indexBody (c : ClassId) :
    Builds t (indexBody index c) fun _ t' => Indexes (.members c (t.membersOf c)) t t' := by
  refine (builds_get ?_).bind
  split
  · rename_i body hbody
    rw [membersOf_of_body hbody]
    exact hindex t (.members c body) hbody
  · rename_i hbody
    rw [membersOf, Option.eq_none_iff_forall_not_mem.mpr hbody]
    exact builds_pure .noMembers

/-- a class is entered and its members are gone over; the last step is the caller's -/
theorem Derives.builds_class {node : Node} {kind : ClassKind} {outer : Option CodeOwner}
    {isLocal : Bool} {parent : ScopeId} {f : ClassId → Build Unit} {Q : Table → Prop}
    (hlast : ∀ t₁, Indexes (.cls outer node (node.child? "body") parent) t t₁ →
      (t₁.decl t.classes.size).isLocal = isLocal → Builds t₁ (f t.classes.size) fun _ t' => Q t') :
    Builds t (declareClass node kind outer isLocal parent >>= fun c =>
      indexBody index c >>= fun _ => f c) fun _ t' => Q t' := by
  refine ((builds_declareClass node kind outer isLocal parent).mono fun c t₁ hentered => ?_).bind
  obtain ⟨rfl, hregisters, hlocal⟩ := hentered
  have hlt : t.classes.size < t₁.classes.size := hregisters.size ▸ Nat.lt_succ_self _
  refine ((hindex.builds_indexBody t.classes.size).mono fun _ t₂ hmembers => ?_).bind
  rw [membersOf, show (t₁.decl t.classes.size).body = _ from congrArg (·.1) hregisters.fixed] at hmembers
  exact hlast t₂ (.cls hregisters hmembers) ((hmembers.stays.isLocal hlt).trans hlocal)

theorem Derives.builds_anonymous {node body : Node} {owner : CodeOwner} {parent : ScopeId}
    {supertype : Option ClassId} (hsupertype : ∀ k ∈ supertype, k = owner.cls) :
    Builds t (declareAnonymous node body owner parent supertype >>= fun c =>
        index (.members c body))
      fun _ t' => Indexes (.cls (some owner) node (some body) parent) t t' ∧
        (t'.decl t.classes.size).isLocal = true := by
  refine ((builds_declareAnonymous node body owner parent hsupertype).mono fun c t₁ hentered => ?_).bind
  obtain ⟨rfl, hregisters, hlocal⟩ := hentered
  have hlt : t.classes.size < t₁.classes.size := hregisters.size ▸ Nat.lt_succ_self _
  have hbody : (t₁.decl t.classes.size).body = some body := congrArg (·.1) hregisters.fixed
  refine (hindex t₁ (.members _ body) hbody).mono fun _ t₂ hmembers => ?_
  exact ⟨.cls hregisters hmembers, (hmembers.stays.isLocal hlt).trans hlocal⟩

/-! ## members -/

theorem Derives.builds_indexOwnCode (c : ClassId) (label : String) (code : Option Node) :
    Builds t (indexOwnCode index c label code) fun _ t' => Indexes (.own c code.toList) t t' := by
  cases code with
  | none => exact builds_pure (.noCode (.refl t))
  | some code =>
    refine (builds_get ?_).bind
    refine (builds_openScope ?_).bind
    exact (hindex.code _ _ _).mono fun _ t' hcode =>
      .own (.refl t) hcode (.noCode (.refl t'))

theorem Derives.builds_indexFields (hmember : member ∈ t.membersOf c)
    (hkind : MemberKind.ofKind member.kind = .field) :
    Builds t (indexFields index c member) fun _ t' =>
      Indexes (.own c member.initializers) t t' := by
  have hstatic : ∀ kind : ClassKind, member.declaresStatic kind = (member.modifiers.1.contains "static" ||
      member.kind == "constant_declaration" || kind.isInterface) := fun _ => by rw [Node.declaresStatic, hkind]
  refine (builds_get ?_).bind
  refine builds_forM (I := fun done t₁ =>
    Indexes (.own c (done.flatMap fun d : Node => (d.child? "value").toList)) t t₁)
    (.noCode (.refl t))
    fun done declarator t₁ hdeclarator hdone => ?_
  have hfield := builds_declareField (hdone.stays.mem_membersOf hmember)
    (show declarator ∈ member.declarators by rw [Node.declarators, hkind]; exact hdeclarator)
  rw [hstatic, hdone.stays.kind (lt_of_mem_membersOf hmember)] at hfield
  refine (hfield.mono fun _ t₂ hnotes => ?_).bind
  refine (hindex.builds_indexOwnCode c _ _).mono fun _ t₃ hown => ?_
  rw [List.flatMap_append, List.flatMap_singleton]
  exact hdone.own_append (hown.amend hnotes)

omit hindex in
theorem builds_openedScope (member : Node) (label : String) (classScope : ScopeId) :
    Builds t (openMethodScope member label classScope) fun scope t' => ∃ s,
      t.scopes.childDeclaring t.source classScope label member.methodNames = .ok (scope, s) ∧
        t' = { t with scopes := s } := by
  refine (builds_get ?_).bind
  refine (builds_lift fun opened hopened => ?_).bind
  refine (builds_modify ?_).bind
  exact builds_pure ⟨opened.2, hopened, rfl⟩

theorem Derives.builds_indexMethod (hmember : member ∈ t.membersOf c)
    (hkind : MemberKind.ofKind member.kind = .method) :
    Builds t (indexMethod index c member) fun _ t' => Indexes (.member c member) t t' := by
  refine ((builds_makeMethod hmember).mono fun m t₁ hm => ?_).bind
  obtain ⟨rfl, hnode, hpresents⟩ := hm
  have hbody : m.body = member.child? "body" := by
    rw [Method.body, hnode]
    rfl
  cases hchild : member.child? "body" with
  | none =>
    have hbare : m.coded = none := by
      rw [Method.coded, hnode, Option.filter_some, hchild]
      rfl
    refine ((builds_addMethod_bare hbare hpresents).mono fun id t₂ hnotes => ?_).bind
    split
    · rename_i body hsome
      rw [hbody, hchild] at hsome
      cases hsome
    · refine builds_pure (.idle ?_ hnotes)
      rw [Node.isIdle, hkind, hchild]
      rfl
  | some body =>
    have hcoded : m.coded = some member := by
      rw [Method.coded, hnode, Option.filter_some, hchild]
      rfl
    refine ((builds_addMethod (lt_of_mem_membersOf hmember) hcoded hpresents).mono fun id t₂ hadds => ?_).bind
    split
    · rename_i body' hsome
      rw [hbody, hchild] at hsome
      cases hsome
      refine (builds_get ?_).bind
      refine ((builds_openedScope member _ _).mono fun scope t₃ hopened => ?_).bind
      obtain ⟨s, hopened, rfl⟩ := hopened
      refine (builds_modify ?_).bind
      refine (hindex.code _ _ _).mono fun _ t' hcode => ?_
      refine .method hkind hchild hadds hopened (fun hdeclaration => ?_) hcode
      rw [hdeclaration]
      rfl
    · rename_i hnone
      exact absurd (hbody.trans hchild) (hnone body)

theorem Derives.builds_indexConstant (hmember : member ∈ t.membersOf c)
    (hkind : MemberKind.ofKind member.kind = .constant) :
    Builds t (indexConstant index c member) fun _ t' => Indexes (.member c member) t t' := by
  have hfield := builds_declareField hmember
    (show member ∈ member.declarators by rw [Node.declarators, hkind]; exact List.mem_singleton_self member)
  rw [Node.declaresStatic, hkind] at hfield
  refine (hfield.mono fun _ t₁ hnotes => ?_).bind
  refine ((hindex.builds_indexOwnCode c _ _).mono fun _ t₂ hown => ?_).bind
  have hcodes := hown.amend hnotes
  unfold indexConstantBody
  split
  · rename_i body hbody
    refine (builds_get ?_).bind
    refine (hindex.builds_anonymous fun k hk => ?_).mono fun _ t₃ hnested =>
      .constantBody hkind hbody hcodes hnested.1 hnested.2
    exact (Option.mem_some.mp hk).symm
  · rename_i hbody
    exact builds_pure (.constant hkind (Option.eq_none_iff_forall_not_mem.mpr hbody) hcodes)

theorem Derives.builds_indexMember (hmember : member ∈ t.membersOf c) :
    Builds t (indexMember index c member) fun _ t' => Indexes (.member c member) t t' := by
  refine (builds_get ?_).bind
  generalize hkind : MemberKind.ofKind member.kind = kind
  cases kind with
  | field => exact (hindex.builds_indexFields hmember hkind).mono fun _ _ hcodes => .fields hkind hcodes
  | method => exact hindex.builds_indexMethod hmember hkind
  | constant => exact hindex.builds_indexConstant hmember hkind
  | block => exact (hindex.code _ _ _).mono fun _ _ hcode => .block (.inl hkind) hcode
  | staticBlock => exact (hindex.code _ _ _).mono fun _ _ hcode => .block (.inr hkind) hcode
  | nested flavour =>
    refine hindex.builds_class fun t₁ hnested hlocal => ?_
    have hnamed := Indexes.nested hkind hnested (names_enrolled (some c) hlocal)
    unfold enrolled at hnamed
    refine (builds_get ?_).bind
    split
    · rename_i name hname
      rw [hname] at hnamed
      exact builds_modify hnamed
    · rename_i hname
      rw [Option.eq_none_iff_forall_not_mem.mpr hname] at hnamed
      exact builds_pure hnamed
  | other =>
    refine builds_pure (.idle ?_ (.refl t))
    rw [Node.isIdle, hkind]

/-! ## code -/

theorem Derives.builds_indexSteps (owner : CodeOwner) (here inner : ScopeId) {steps : List Step}
    (hsteps : ∀ step ∈ steps, step.Of n) :
    Builds t (indexSteps index owner here inner steps) fun _ t' =>
      Indexes (.steps owner here inner steps) t t' := by
  induction steps generalizing t inner with
  | nil => exact builds_pure .done
  | cons step rest ih =>
    have hrest := fun step' hstep' => hsteps step' (List.mem_cons_of_mem _ hstep')
    refine (builds_get ?_).bind
    refine (builds_lift fun p hperform => ?_).bind
    refine (builds_modify ?_).bind
    cases Step.performs hperform with
    | enter | declare =>
      refine (builds_pure ?_).bind
      exact (ih _ hrest).mono fun _ _ hothers => .quiet hperform (.inl rfl) hothers
    | caseConstant =>
      refine (builds_pure ?_).bind
      exact (ih _ hrest).mono fun _ _ hothers => .quiet rfl (.inr ⟨_, rfl⟩) hothers
    | visit hplace =>
      refine ((hindex.code owner _ _).mono fun _ t₁ hfirst => ?_).bind
      exact (ih _ hrest).mono fun _ _ hothers => .visit hplace hfirst hothers
    | @localClass declaration =>
      obtain ⟨kind, hkind⟩ := Step.Of.kind (hsteps _ List.mem_cons_self)
      refine Builds.bind ?_
      refine (builds_openScope ?_).bind
      rw [hkind]
      refine hindex.builds_class fun t₁ hfirst hlocal => ?_
      have hothers : Builds (t₁.nameLocal here t.classes.size)
          (indexSteps index owner here inner rest) fun _ t' =>
            Indexes (.steps owner here inner (.localClass declaration :: rest)) t t' :=
        (ih _ hrest).mono fun _ _ hothers => .localClass hfirst hothers hlocal
      unfold nameLocal at hothers
      refine (builds_get ?_).bind
      split
      · rename_i name hname
        rw [hname] at hothers
        exact builds_modify hothers
      · rename_i hname
        rw [Option.eq_none_iff_forall_not_mem.mpr hname] at hothers
        exact builds_pure hothers
    | anonymousClass =>
      refine Builds.bind ?_
      refine (builds_openScope ?_).bind
      refine (hindex.builds_anonymous fun k hk => ?_).mono fun _ t₁ hfirst => ?_
      · cases hk
      · exact (ih _ hrest).mono fun _ _ hothers => .anonymousClass hfirst.1 hothers hfirst.2

end

theorem derives_indexRegion (depth : Nat) : Derives (indexRegion depth) := by
  induction depth with
  | zero =>
    intro t region _ a t' hx
    cases hx
  | succ depth ih =>
    intro t region hown
    cases region with
    | code owner node scope =>
      exact (ih.builds_indexSteps owner scope scope node.of_plan).mono fun _ _ hsteps => .code hsteps
    | members c body =>
      have along : ∀ (rest : List Node) (t : Table), (∀ member ∈ rest, member ∈ t.membersOf c) →
          Builds t (rest.forM (indexMember (indexRegion depth) c)) fun _ t' =>
            Indexes (.members c rest) t t' := by
        intro rest
        induction rest with
        | nil => exact fun t _ => builds_pure .noMembers
        | cons member rest ihrest =>
          intro t hmembers
          refine Builds.bind (f := fun _ => rest.forM (indexMember (indexRegion depth) c))
            ((ih.builds_indexMember (hmembers member List.mem_cons_self)).mono fun _ t₁ hfirst => ?_)
          refine (ihrest t₁ fun other hother => ?_).mono fun _ _ hothers => .members hfirst hothers
          exact hfirst.stays.mem_membersOf (hmembers other (List.mem_cons_of_mem _ hother))
      exact along (memberNodes body) t (membersOf_of_body hown ▸ fun _ hmember => hmember)

/-! ## the unit -/

theorem builds_recordImport (node : Node) : Builds t (recordImport node) fun _ t' => t.Notes t' := by
  unfold recordImport
  split
  · refine ((quiet_buildText _).builds fun qualified => ?_).bind
    split
    · exact builds_modify (notes_of_classes rfl rfl rfl rfl rfl)
    · exact builds_modify (notes_of_classes rfl rfl rfl rfl rfl)
  · exact builds_pure (.refl t)

theorem builds_recordPackage (node : Node) : Builds t (recordPackage node) fun _ t' => t.Notes t' := by
  refine builds_forM (I := fun _ t₁ => t.Notes t₁) (.refl t) fun _ part t₁ _ hnotes => ?_
  refine ((quiet_buildText _).builds fun package => ?_).bind
  exact builds_modify (hnotes.trans (notes_of_classes rfl rfl rfl rfl rfl))

theorem builds_indexTopLevel (depth : Nat) (node : Node) {Q : Table → Prop}
    (haside : ∀ t₁, t.Notes t₁ → Q t₁)
    (hclass : ∀ kind t₁ t₂, ClassKind.ofKind? node.kind = some kind →
      Indexes (.cls none node (node.child? "body") Scopes.rootId) t t₁ → Names none t.classes.size t₁ t₂ → Q t₂) :
    Builds t (indexTopLevel depth node) fun _ t' => Q t' := by
  unfold indexTopLevel
  split
  · exact (builds_recordPackage node).mono fun _ _ hnotes => haside _ hnotes
  split
  · exact (builds_recordImport node).mono fun _ _ hnotes => haside _ hnotes
  split
  · rename_i kind hkind
    refine (derives_indexRegion depth).builds_class fun t₁ hfirst hlocal => ?_
    have hnamed := hclass kind t₁ _ hkind hfirst (names_enrolled none hlocal)
    unfold enrolled at hnamed
    refine (builds_get ?_).bind
    split
    · rename_i name hname
      rw [hname] at hnamed
      exact builds_modify hnamed
    · rename_i hname
      rw [Option.eq_none_iff_forall_not_mem.mpr hname] at hnamed
      exact builds_pure hnamed
  · exact builds_pure (haside t (.refl t))

theorem indexes_of_indexed (h : indexed source = .ok t) :
    Indexes (.unit source.root.namedChildren) { source } t := by
  obtain ⟨⟨_, t₁⟩, hrun, hdone⟩ := Run.of_except_bind h
  cases hdone
  have along : ∀ (rest : List Node) (t : Table),
      Builds t (rest.forM (indexTopLevel source.root.height)) fun _ t' =>
        Indexes (.unit rest) t t' := by
    intro rest
    induction rest with
    | nil => exact fun t => builds_pure .finished
    | cons node rest ih =>
      intro t
      refine Builds.bind (f := fun _ => rest.forM (indexTopLevel source.root.height)) ?_
      refine builds_indexTopLevel _ node (fun t₁ hamends => ?_)
        fun kind t₁ t₂ hkind hfirst hamends => ?_
      · exact (ih t₁).mono fun _ _ hothers => .aside hamends hothers
      · exact (ih t₂).mono fun _ _ hothers => .topLevel hkind hfirst hamends hothers
  exact along _ _ () t hrun

theorem amends_linkSupertype (t : Table) (c : ClassId) (harmless : List String)
    {f : ClassDecl → ClassDecl} (hsettled : ∀ d, (f d).settled = d.settled) (hfields : ∀ d, (f d).fields = d.fields)
    (hmethods : ∀ d, (f d).methods = d.methods) (written : String) :
    t.Amends (linkSupertype c harmless f t written) := by
  simp only [linkSupertype]
  split
  · exact amends_modify t c (fun _ => rfl) (fun _ => rfl) fun _ => rfl
  · split
    · exact .refl t
    · exact amends_modify t c hsettled hfields hmethods

theorem amends_foldl {α : Type} {f : Table → α → Table} (hf : ∀ (t : Table) (x : α), t.Amends (f t x))
    (xs : List α) (t : Table) : t.Amends (xs.foldl f t) := by
  induction xs generalizing t with
  | nil => exact .refl t
  | cons x xs ih => exact (hf t x).trans (ih (f t x))

theorem amends_linkSupertypes (t : Table) (c : ClassId) : t.Amends (linkSupertypes t c) :=
  (amends_foldl (fun t written => amends_linkSupertype t c _ (fun _ => by rfl) (fun _ => by rfl) (fun _ => by rfl)
    written) _ t).trans (amends_foldl (fun t written => amends_linkSupertype t c _ (fun _ => by rfl)
      (fun _ => by rfl) (fun _ => by rfl) written) _ _)

/-- the table of a unit, up to what the second pass amends -/
theorem indexes_of_ofSource (h : ofSource source = .ok t) :
    ∃ t₀, Indexes (.unit source.root.namedChildren) { source } t₀ ∧ t₀.Amends t := by
  obtain ⟨t₀, hindexed, hdone⟩ := Run.of_except_bind h
  cases hdone
  exact ⟨t₀, indexes_of_indexed hindexed, amends_foldl amends_linkSupertypes _ t₀⟩

/-! ## fields -/

theorem Table.Revises.traced (h : t.Revises t') (htraced : t.Traced) : t'.Traced := by
  intro k hk e he
  have hold : t.Originates k e := (h.fields k e he).elim (htraced k (h.size ▸ hk) e) id
  exact hold.keep h.source (congrArg (·.1.2.1) (h.settled k)) (congrArg (·.2.1) (h.settled k))

theorem steadfast_traced : Steadfast Traced where
  scopes _ ht := ht.setScopes _
  registers hr ht := by
    obtain ⟨d, shown, hd, _, hnotes⟩ := hr.entry
    exact hnotes.traced (ht.entered hd.fields)
  revises hr ht := hr.traced ht

theorem Table.originates_of_ofSource (h : ofSource source = .ok t) (hc : c < t.classes.size)
    {e : String × Field} (he : e ∈ (t.decl c).fields) : t.Originates c e := by
  obtain ⟨t₀, hindexes, hamends⟩ := indexes_of_ofSource h
  -- the table at the start has no class
  exact hamends.traced (steadfast_traced.indexes hindexes fun k hk => by cases hk) c hc e he

end StaticPromotion
