import StaticPromotion.Proofs.Passing

/-!
# Declarations in block positions

A declaration is for the code after it, so it has to stand where there is such code: among the statements of a block or of a
`case`, or in the head of a `for`. All other code leaves the level that it stands in as it was, and it makes no difference
whether it is gone over.

* `Node.admits n c`   `c` may stand directly in `n`;
* `Node.isOrderly`    the children of a node may stand in it;
* `Node.Calm`         a node that declares nothing for the code after it, nor does anything inside it;
* `Step.AllGuarded P free`, `Node.guarded_plan`   the steps of a plan fill free levels only, and go on in free levels or to
                      parts that satisfy `P`;
* `Sheltered`         the steps of a plan that fill only levels which the plan has opened;
* `Table.Ran.calm`    going over calm code fills no level that was there before;
* `Table.Ran.calm_part`, `Table.Ran.calm_class`   parts of a plan without levels of its own see the level as it was.
-/

namespace StaticPromotion

variable {steps : List Step} {parts : List Node} {place : Place} {opened : Bool}

/-! ## positions -/

/-- a construct with statements of its own -/
def Construct.hasStatements : Construct → Bool
  | .block | .forLoop | .caseGroup | .caseRule => true
  | _ => false

namespace Node

variable {n c : Node}

def memberHolderKinds : List String :=
  ["program", "class_body", "interface_body", "enum_body", "annotation_type_body",
    "enum_body_declarations", "enum_constant"]

/-- a node whose children are members of a class, or classes of the unit -/
def holdsMembers (n : Node) : Bool :=
  memberHolderKinds.contains n.kind

def isClassDeclaration (n : Node) : Bool :=
  (ClassKind.ofKind? n.kind).isSome

def admits (n c : Node) : Bool :=
  if c.declaresForward then
    match n.construct with
    | .block | .forLoop | .caseGroup => true
    | .caseRule => c.construct == .caseLabel
    | _ => n.holdsMembers && c.isClassDeclaration
  else if c.holdsMembers then
    n.holdsMembers || n.isClassDeclaration || (n.construct == .creation && c.kind == "class_body")
  else true

def isOrderly (n : Node) : Bool :=
  n.children.all n.admits

theorem construct_of_holdsMembers (h : n.holdsMembers = true) : n.construct = .unknown := by
  have hkind : n.kind ∈ memberHolderKinds := List.contains_iff_mem.mp h
  have hall : ∀ kind ∈ memberHolderKinds, Construct.ofKind kind = .unknown := by decide
  exact hall n.kind hkind

theorem holdsMembers_of_construct (h : n.construct ≠ .unknown) : n.holdsMembers = false :=
  Bool.eq_false_iff.mpr fun hholds => h (construct_of_holdsMembers hholds)

theorem quiet_of_admits (h : n.admits c = true) (hblock : n.construct.hasStatements = false)
    (hholds : n.holdsMembers = false) : c.declaresForward = false := by
  cases hc : c.declaresForward with
  | false => rfl
  | true =>
    rw [admits, if_pos hc] at h
    unfold Construct.hasStatements at hblock
    split at h <;> simp_all

structure Calm (n : Node) : Prop where
  orderly : ∀ k ∈ n.preorder, k.isOrderly = true
  holds : n.holdsMembers = false
  quiet : n.declaresForward = false

/-- a node that may declare something for the code after it, by itself or by what it holds -/
def mayDeclare (n : Node) : Bool :=
  n.declaresForward || n.holdsMembers

theorem Calm.mayDeclare (h : n.Calm) : n.mayDeclare = false := by
  rw [Node.mayDeclare, h.quiet, h.holds]
  rfl

theorem admits_of_orderly (h : ∀ k ∈ n.preorder, k.isOrderly = true)
    (hc : c ∈ n.children) : n.admits c = true :=
  List.all_eq_true.mp (h n (mem_preorder_self n)) c hc

theorem orderly_child (h : ∀ k ∈ n.preorder, k.isOrderly = true) (hc : c ∈ n.children) :
    ∀ k ∈ c.preorder, k.isOrderly = true :=
  fun k hk => h k (mem_preorder_trans hk (mem_preorder_of_mem_children hc (mem_preorder_self n)))

theorem isClassDeclaration_of_construct (h : ∀ flavour, n.construct ≠ .classDeclaration flavour) :
    n.isClassDeclaration = false := by
  cases hkind : ClassKind.ofKind? n.kind with
  | none => rw [isClassDeclaration, hkind]; rfl
  | some flavour => exact absurd (Construct.ofKind_of_classKind hkind) (h flavour)

theorem holds_of_admits (h : n.admits c = true) (hquiet : c.declaresForward = false)
    (hholds : n.holdsMembers = false) (hclass : n.isClassDeclaration = false)
    (hbody : n.construct = .creation → c.kind ≠ "class_body") : c.holdsMembers = false := by
  cases hc : c.holdsMembers with
  | false => rfl
  | true =>
    rw [admits, hquiet, if_neg Bool.false_ne_true, if_pos hc, hholds, hclass, Bool.false_or,
      Bool.false_or, Bool.and_eq_true] at h
    exact absurd (eq_of_beq h.2) (hbody (eq_of_beq h.1))

theorem Calm.child (h : n.Calm) (hc : c ∈ n.children) (hblock : n.construct.hasStatements = false)
    (hbody : n.construct = .creation → c.kind ≠ "class_body") : c.Calm := by
  have hadmits := admits_of_orderly h.orderly hc
  have hquiet := quiet_of_admits hadmits hblock h.holds
  have hclass : n.isClassDeclaration = false := by
    refine isClassDeclaration_of_construct fun flavour hconstruct => ?_
    have hno := h.quiet
    rw [declaresForward, hconstruct] at hno
    cases hno
  exact ⟨orderly_child h.orderly hc, holds_of_admits hadmits hquiet h.holds hclass hbody, hquiet⟩

theorem Calm.children (h : n.Calm)
    (hplain : n.construct.hasStatements = false ∧ n.construct ≠ .creation) : ∀ c ∈ n.children, c.Calm :=
  fun _ hc => h.child hc hplain.1 fun hno => absurd hno hplain.2

end Node

/-! ## plans with guarded parts -/

section
variable {P : Node → Prop} {free : ScopeId → Prop} {here inner : ScopeId}

theorem Step.allGuarded_append {rest : List Step} (h : Step.AllGuarded P free here inner steps)
    (hrest : ∀ inner', (inner' = inner ∨ free inner') → Step.AllGuarded P free here inner' rest) :
    Step.AllGuarded P free here inner (steps ++ rest) := by
  induction steps generalizing inner with
  | nil => exact hrest inner (.inl rfl)
  | cons step steps ih =>
    refine ⟨h.1, fun inner' hleaves => ih (h.2 inner' hleaves) fun inner'' hinner => hrest inner'' ?_⟩
    rcases hinner with rfl | hfree
    · cases step with
      | enter => exact .inr hleaves
      | declare | visit | caseConstant | localClass | anonymousClass => exact .inl hleaves
    · exact .inr hfree

namespace Node

variable {n : Node}

theorem guarded_visitAll (h : ∀ c ∈ parts, place.Free free here inner ∨ P c) :
    Step.AllGuarded P free here inner (visitAll place parts) := by
  induction parts with
  | nil => trivial
  | cons c parts ih =>
    refine ⟨h c List.mem_cons_self, fun inner' hleaves => ?_⟩
    obtain rfl : inner' = inner := hleaves
    exact ih fun x hx => h x (List.mem_cons_of_mem _ hx)

theorem guarded_visitField {f : String} (h : place.Free free here inner ∨ ∀ c ∈ n.children, P c) :
    Step.AllGuarded P free here inner (n.visitField f place) :=
  guarded_visitAll fun _ hc => h.imp_right fun hparts => hparts _ (mem_of_child? (Option.mem_toList.mp hc))

theorem guarded_resources (hinner : free inner) (resources : List Node) :
    Step.AllGuarded P free here inner (resources.flatMap resourceSteps) := by
  induction resources generalizing inner with
  | nil => trivial
  | cons resource resources ih =>
    rw [List.flatMap_cons]
    refine Step.allGuarded_append ?_ fun inner' hinner' => ih (hinner'.elim (fun heq => heq ▸ hinner) id)
    unfold resourceSteps
    split
    · refine ⟨hinner, fun inner' hleaves => ?_⟩
      obtain rfl : inner' = inner := hleaves
      exact guarded_visitField (.inl trivial)
    · exact guarded_visitAll fun _ _ => .inl hinner

theorem guarded_creationSteps (h : ∀ c ∈ parts, c.kind ≠ "class_body" → P c) :
    Step.AllGuarded P free here inner (n.creationSteps parts) := by
  unfold creationSteps
  induction parts with
  | nil => trivial
  | cons c parts ih =>
    have hrest := ih fun x hx => h x (List.mem_cons_of_mem _ hx)
    rw [List.filter_cons]
    split
    · rw [List.map_cons]
      split
      · exact ⟨trivial, fun inner' hleaves => hleaves ▸ hrest⟩
      · rename_i hkind
        refine ⟨.inr (h c List.mem_cons_self fun heq => hkind (beq_iff_eq.mpr heq)), fun inner' hleaves => ?_⟩
        obtain rfl : inner' = inner := hleaves
        exact hrest
    · exact hrest

theorem guarded_enter {label : String} {names : List Node}
    (h : ∀ inner', free inner' → Step.AllGuarded P free here inner' steps) :
    Step.AllGuarded P free here inner (.enter label names :: steps) :=
  ⟨trivial, h⟩

theorem guarded_plan (hquiet : n.declaresForward = false)
    (hparts : n.construct.hasStatements = false → ∀ c ∈ n.children,
      (n.construct = .creation → c.kind ≠ "class_body") → P c) :
    Step.AllGuarded P free here inner n.plan := by
  have hfresh : ∀ inner f below label names,
      Step.AllGuarded P free here inner (n.visitField f (.fresh below label names)) :=
    fun _ _ _ _ _ => guarded_visitField (.inl trivial)
  have hbody : ∀ inner, free inner → ∀ f, Step.AllGuarded P free here inner (n.visitField f .inner) :=
    fun _ hinner _ => guarded_visitField (.inl hinner)
  have hstatements : ∀ inner, free inner → ∀ parts, Step.AllGuarded P free here inner (visitStatements parts) :=
    fun _ hinner parts => Step.allGuarded_visitStatements hinner parts
  -- a construct without statements, other than a creation, may go on to its children where it stands
  have hchildren : n.construct.hasStatements = false ∧ n.construct ≠ .creation → ∀ c ∈ n.children, P c :=
    fun hplain c hc => hparts hplain.1 c hc fun hno => absurd hno hplain.2
  have hnamed : ∀ inner (p : Node → Bool), (∀ c ∈ n.children, P c) →
      Step.AllGuarded P free here inner (visitAll .here (n.namedChildren.filter p)) :=
    fun _ p hall => guarded_visitAll fun c hc =>
      .inr (hall c (List.mem_filter.mp (List.mem_filter.mp hc).1).1)
  have hall : (∀ c ∈ n.children, P c) → Step.AllGuarded P free here inner (visitAll .here n.namedChildren) :=
    fun hparts => guarded_visitAll fun c hc => .inr (hparts c (List.mem_filter.mp hc).1)
  unfold plan
  split <;> rename_i hconstruct
  · exact guarded_enter fun inner' hinner => hstatements inner' hinner _
  · rw [declaresForward, hconstruct] at hquiet
    cases hquiet
  · rw [declaresForward, hconstruct] at hquiet
    cases hquiet
  · exact guarded_enter fun inner' hinner =>
      Step.allGuarded_append (hstatements inner' hinner _) fun _ _ => hfresh _ _ _ _ _
  · have hcalm := hchildren (by rw [hconstruct]; decide)
    exact Step.allGuarded_append (Step.allGuarded_append (guarded_visitField (.inr hcalm))
      fun _ _ => hfresh _ _ _ _ _) fun _ _ => hfresh _ _ _ _ _
  · have hcalm := hchildren (by rw [hconstruct]; decide)
    exact Step.allGuarded_append (guarded_visitField (.inr hcalm)) fun _ _ => hfresh _ _ _ _ _
  · have hcalm := hchildren (by rw [hconstruct]; decide)
    split
    · exact Step.allGuarded_append (guarded_visitField (.inr hcalm)) fun _ _ => hfresh _ _ _ _ _
    · exact Step.allGuarded_append (guarded_visitField (.inr hcalm)) fun _ _ => hfresh _ _ _ _ _
    · exact hall hcalm
  · exact Step.allGuarded_append (hfresh _ _ _ _ _) fun _ _ =>
      guarded_enter fun inner' hinner => hbody inner' hinner _
  · exact guarded_enter fun inner' hinner => hbody inner' hinner _
  · have hcalm := hchildren (by rw [hconstruct]; decide)
    refine guarded_enter fun inner' hinner => Step.allGuarded_append (Step.allGuarded_append
      (guarded_resources hinner _) fun inner'' hafter => ?_) fun _ _ => hnamed _ _ hcalm
    exact hbody inner'' (hafter.elim (fun heq => heq ▸ hinner) id) _
  · exact guarded_enter fun inner' hinner => hbody inner' hinner _
  · exact guarded_enter fun inner' hinner => hstatements inner' hinner _
  · exact guarded_enter fun inner' hinner => guarded_visitAll fun _ _ => .inl hinner
  · rw [declaresForward, hconstruct] at hquiet
    cases hquiet
  · exact guarded_visitField (.inr (hchildren (by rw [hconstruct]; decide)))
  · exact hnamed _ _ (hchildren (by rw [hconstruct]; decide))
  · refine guarded_creationSteps fun c hc hkind => ?_
    exact hparts (by rw [hconstruct]; rfl) c (List.mem_filter.mp hc).1 fun _ => hkind
  · refine hall (hchildren ?_)
    unfold Construct.hasStatements
    split <;> simp_all

end Node

end

/-! ## plans that fill only levels of their own -/

def Place.isFresh : Place → Bool
  | .fresh _ _ _ => true
  | .here | .inner => false

/-- a level that the plan has opened, if it has opened one -/
def Place.isOwn (opened : Bool) : Place → Bool
  | .here => false
  | .inner => opened
  | .fresh _ _ _ => true

/-- `opened` tells whether the inner scope has been opened -/
def Sheltered : Bool → List Step → Prop
  | _, [] => True
  | _, .enter _ _ :: rest => Sheltered true rest
  | opened, .declare _ place :: rest => place.isOwn opened = true ∧ Sheltered opened rest
  | opened, .visit part place :: rest =>
    (place.isOwn opened = true ∨ part.Calm) ∧ Sheltered opened rest
  | opened, .caseConstant _ :: rest => Sheltered opened rest
  | opened, .anonymousClass _ _ :: rest => Sheltered opened rest
  | _, .localClass _ :: _ => False

/-- read with scope 0 for where the plan stands and scope 1 for every level it opens -/
theorem Place.isOwn_of_free (h : place.Free (· = 1) 0 (if opened then 1 else 0)) :
    place.isOwn opened = true := by
  cases place with
  | here => exact absurd h Nat.zero_ne_one
  | inner =>
    cases opened with
    | true => rfl
    | false => exact absurd h Nat.zero_ne_one
  | fresh => rfl

theorem sheltered_of_guarded (h : Step.AllGuarded Node.Calm (· = 1) 0 (if opened then 1 else 0) steps) :
    Sheltered opened steps := by
  induction steps generalizing opened with
  | nil => trivial
  | cons step rest ih =>
    cases step with
    | enter => exact @ih true (h.2 1 rfl)
    | declare => exact ⟨Place.isOwn_of_free h.1, ih (h.2 _ rfl)⟩
    | visit => exact ⟨h.1.imp_left Place.isOwn_of_free, ih (h.2 _ rfl)⟩
    | caseConstant | anonymousClass => exact ih (h.2 _ rfl)
    | localClass => exact absurd h.1 Nat.zero_ne_one

theorem Node.Calm.sheltered {n : Node} (h : n.Calm) : Sheltered false n.plan :=
  sheltered_of_guarded (Node.guarded_plan h.quiet fun hblock _ hc hbody => h.child hc hblock hbody)

/-! ## declarations that are gone on to -/

/-- a declaration is a proper part, or what it declares is for no other code -/
def Step.Proper : Step → Prop
  | .visit part place => part.mayDeclare = true → part.named = true ∨ place.isFresh = true
  | .enter _ _ | .declare _ _ | .caseConstant _ | .localClass _ | .anonymousClass _ _ => True

namespace Node

theorem proper_visitAll (h : ∀ c ∈ parts, c.named = true) (place : Place) :
    ∀ step ∈ visitAll place parts, step.Proper := by
  intro step hstep
  obtain ⟨c, hc, rfl⟩ := List.mem_map.mp hstep
  exact fun _ => .inl (h c hc)

theorem proper_visitStatements (h : ∀ c ∈ parts, c.named = true) :
    ∀ step ∈ visitStatements parts, step.Proper := by
  intro step hstep
  obtain ⟨c, hc, rfl⟩ := List.mem_map.mp hstep
  exact fun _ => .inl (h c hc)

theorem proper_visitField {n : Node} {f : String}
    (h : place.isFresh = true ∨ ∀ c ∈ n.children, c.mayDeclare = false) :
    ∀ step ∈ n.visitField f place, step.Proper := by
  intro step hstep
  obtain ⟨c, hc, rfl⟩ := List.mem_map.mp hstep
  intro hdeclares
  refine .inr (h.resolve_right fun hquiet => ?_)
  rw [hquiet c (mem_of_child? (Option.mem_toList.mp hc))] at hdeclares
  cases hdeclares

theorem proper_declaratorSteps (n : Node) (place : Place) :
    ∀ step ∈ n.declaratorSteps place, step.Proper := by
  intro step hstep
  obtain ⟨d, _, hstep⟩ := List.mem_flatMap.mp hstep
  rcases List.mem_append.mp hstep with hstep | hstep
  · obtain ⟨_, _, rfl⟩ := List.mem_map.mp hstep
    trivial
  · exact proper_visitField (.inl rfl) step hstep

theorem proper_resourceSteps (resource : Node) : ∀ step ∈ resource.resourceSteps, step.Proper := by
  unfold resourceSteps
  split
  · exact List.forall_mem_cons.mpr ⟨trivial, proper_visitField (.inl rfl)⟩
  · exact proper_visitAll (fun _ => named_of_mem_namedChildren) _

theorem proper_caseLabelSteps (n : Node) : ∀ step ∈ n.caseLabelSteps, step.Proper := by
  refine List.forall_mem_append.mpr ⟨fun step hstep => ?_,
    proper_visitAll (fun _ hc => named_of_mem_namedChildren (List.mem_filter.mp hc).1) _⟩
  obtain ⟨c, _, hstep⟩ := List.mem_flatMap.mp hstep
  split at hstep
  · obtain ⟨_, _, rfl⟩ := List.mem_map.mp hstep
    trivial
  · split at hstep
    · cases List.mem_singleton.mp hstep
      trivial
    · cases hstep

theorem proper_creationSteps {n : Node} (h : ∀ c ∈ parts, c.named = true) :
    ∀ step ∈ n.creationSteps parts, step.Proper := by
  intro step hstep
  obtain ⟨c, hc, rfl⟩ := List.mem_map.mp hstep
  split
  · trivial
  · exact fun _ => .inl (h c (List.mem_filter.mp hc).1)

theorem proper_plan {n : Node} (horderly : n.isOrderly = true) (hholds : n.holdsMembers = false) :
    ∀ step ∈ n.plan, step.Proper := by
  have hnamed : ∀ c ∈ n.namedChildren, c.named = true := fun _ => named_of_mem_namedChildren
  have hsome : ∀ p : Node → Bool, ∀ c ∈ n.namedChildren.filter p, c.named = true :=
    fun p c hc => hnamed c (List.mem_filter.mp hc).1
  have hfresh : ∀ f below label names, ∀ step ∈ n.visitField f (.fresh below label names), step.Proper :=
    fun _ _ _ _ => proper_visitField (.inl rfl)
  have hplain : ∀ k, n.construct = k → k.hasStatements = false ∧ k ≠ .creation ∧
      (∀ flavour, k ≠ .classDeclaration flavour) → ∀ f place, ∀ step ∈ n.visitField f place, step.Proper := by
    rintro k rfl ⟨hblock, hcreation, hclass⟩ f place
    refine proper_visitField (.inr fun c hc => ?_)
    have hadmits := List.all_eq_true.mp horderly c hc
    have hquiet := quiet_of_admits hadmits hblock hholds
    rw [mayDeclare, hquiet, holds_of_admits hadmits hquiet hholds
      (isClassDeclaration_of_construct hclass) fun hno => absurd hno hcreation]
    rfl
  unfold plan
  split <;> rename_i hconstruct
  · exact List.forall_mem_cons.mpr ⟨trivial, proper_visitStatements hnamed⟩
  · exact proper_declaratorSteps _ _
  · exact List.forall_mem_singleton.mpr trivial
  · refine List.forall_mem_cons.mpr ⟨trivial, List.forall_mem_append.mpr ⟨?_, hfresh _ _ _ _⟩⟩
    exact proper_visitStatements fun c hc => (List.mem_filter.mp hc).2
  · have hfield := hplain _ hconstruct ⟨rfl, nofun, nofun⟩
    exact List.forall_mem_append.mpr ⟨List.forall_mem_append.mpr ⟨hfield _ _, hfield _ _⟩, hfield _ _⟩
  · have hfield := hplain _ hconstruct ⟨rfl, nofun, nofun⟩
    exact List.forall_mem_append.mpr ⟨hfield _ _, hfield _ _⟩
  · have hfield := hplain _ hconstruct ⟨rfl, nofun, nofun⟩
    split
    · exact List.forall_mem_append.mpr ⟨hfield _ _, hfield _ _⟩
    · exact List.forall_mem_append.mpr ⟨hfield _ _, hfield _ _⟩
    · exact proper_visitAll hnamed _
  · have hfield := hplain _ hconstruct ⟨rfl, nofun, nofun⟩
    exact List.forall_mem_append.mpr ⟨hfield _ _, List.forall_mem_cons.mpr ⟨trivial, hfield _ _⟩⟩
  · exact List.forall_mem_cons.mpr ⟨trivial, hplain _ hconstruct ⟨rfl, nofun, nofun⟩ _ _⟩
  · refine List.forall_mem_cons.mpr ⟨trivial, List.forall_mem_append.mpr ⟨List.forall_mem_append.mpr
      ⟨fun step hstep => ?_, hplain _ hconstruct ⟨rfl, nofun, nofun⟩ _ _⟩, proper_visitAll (hsome _) _⟩⟩
    obtain ⟨resource, _, hstep⟩ := List.mem_flatMap.mp hstep
    exact proper_resourceSteps resource step hstep
  · exact List.forall_mem_cons.mpr ⟨trivial, hplain _ hconstruct ⟨rfl, nofun, nofun⟩ _ _⟩
  · exact List.forall_mem_cons.mpr ⟨trivial, proper_visitStatements hnamed⟩
  · exact List.forall_mem_cons.mpr ⟨trivial, proper_visitAll hnamed _⟩
  · exact proper_caseLabelSteps n
  · exact hplain _ hconstruct ⟨rfl, nofun, nofun⟩ _ _
  · exact proper_visitAll (hsome _) _
  · exact proper_creationSteps hnamed
  · exact proper_visitAll hnamed _

end Node

/-- calm code that stands in the level of the plan, or a class there -/
def Step.Level : Step → Prop
  | .visit part place => place = .here ∧ part.Calm
  | .anonymousClass _ _ => True
  | .enter _ _ | .declare _ _ | .caseConstant _ | .localClass _ => False

/-- a construct that says something by itself, or nothing: its parts are no statements -/
def Construct.isUse : Construct → Bool
  | .identifier | .receiver | .fieldAccess | .invocation | .methodReference | .constructorCall
  | .creation | .inert | .unknown => true
  | _ => false

namespace Node

theorem plan_of_isUse {n : Node} (h : n.construct.isUse = true) (hcreation : n.construct ≠ .creation) :
    n.plan = visitAll .here n.namedChildren := by
  unfold plan
  split <;> simp_all [Construct.isUse]

theorem Calm.level_plan {n : Node} (h : n.Calm) (huse : n.construct.isUse = true) :
    ∀ step ∈ n.plan, step.Level := by
  have hblock : n.construct.hasStatements = false := by
    cases hconstruct : n.construct <;> simp_all [Construct.isUse, Construct.hasStatements]
  by_cases hcreation : n.construct = .creation
  · have hplan : n.plan = n.creationSteps n.namedChildren := by rw [plan, hcreation]
    rw [hplan]
    intro step hstep
    obtain ⟨c, hc, rfl⟩ := List.mem_map.mp hstep
    have hchild := (List.mem_filter.mp (List.mem_filter.mp hc).1).1
    split
    · trivial
    · rename_i hkind
      exact ⟨rfl, h.child hchild hblock fun _ heq => hkind (beq_iff_eq.mpr heq)⟩
  · rw [plan_of_isUse huse hcreation]
    intro step hstep
    obtain ⟨c, hc, rfl⟩ := List.mem_map.mp hstep
    exact ⟨rfl, h.children ⟨hblock, hcreation⟩ c (List.mem_filter.mp hc).1⟩

end Node

/-! ## going over calm code -/

namespace Table

variable {t t₁ t₂ : Table} {owner : CodeOwner} {here inner sc : ScopeId}

theorem own_of_locate {source : SourceUnit} {s s' : Scopes}
    (h : place.locate source here inner s = .ok (sc, s')) (hown : place.isOwn opened = true) :
    (opened = true ∧ sc = inner) ∨ s.frames.size ≤ sc := by
  cases place with
  | here => cases hown
  | inner =>
    cases h
    exact .inl ⟨hown, rfl⟩
  | fresh below label names =>
    obtain ⟨⟨parent, s₁⟩, hbelow, hopen⟩ := Run.of_except_bind h
    obtain ⟨rfl, _⟩ := Scopes.spares_childDeclaring hopen
    exact .inr (Scopes.spares_locate hbelow).2.grows.size

theorem Ran.sheltered
    (h : t.Ran (.steps owner here inner steps) t₁ t₂) (hsteps : Sheltered opened steps)
    (hparts : ∀ part place, .visit part place ∈ steps → part.Calm → ∀ sc a b,
      t.Ran (.code owner part sc) a b → Spans (fun _ => False) a b) :
    Spans (fun id => opened = true ∧ id = inner) t₁ t₂ := by
  induction steps generalizing t₁ inner opened with
  | nil =>
    cases h.indexes
    exact .refl _ h.fits.closed
  | cons step rest ih =>
    have hrest := fun part place hmem => hparts part place (List.mem_cons_of_mem _ hmem)
    cases step with
    | enter label names =>
      obtain ⟨p, hperform, hothers⟩ := h.quiet rfl
      obtain ⟨hopen⟩ := Step.performs hperform
      obtain ⟨rfl, hspares⟩ := Scopes.spares_childDeclaring hopen
      have hfirst := spans_setScopes hothers.fits.closed hspares
      refine hfirst.of_none.trans (ih hothers hsteps hrest) ?_
      rintro id hid ⟨_, rfl⟩
      exact absurd hid (Nat.lt_irrefl _)
    | declare name place =>
      obtain ⟨p, hperform, hothers⟩ := h.quiet rfl
      obtain _ | ⟨hplace, hfilled⟩ := Step.performs hperform
      refine (spans_setScopes hothers.fits.closed ?_).andThen (ih hothers hsteps.2 hrest)
      refine ((Scopes.spares_locate hplace).2.mono fun _ _ _ hid => hid.elim).trans
        (Scopes.spares_declareNodes hfilled) ?_
      rintro id hid rfl
      exact (own_of_locate hplace hsteps.1).resolve_right (Nat.not_le.mpr hid)
    | visit part place =>
      obtain ⟨sc, s, t', hplace, hfirst, hothers⟩ := h.visit
      have hopened := spans_setScopes hfirst.fits.closed (Scopes.spares_locate hplace).2
      have hbefore : Spans (fun id => opened = true ∧ id = inner) t₁ t' := by
        rcases hsteps.1 with hown | hcalm
        · refine hopened.of_none.trans hfirst.spans ?_
          rintro id hid rfl
          exact (own_of_locate hplace hown).resolve_right (Nat.not_le.mpr hid)
        · have hpart := hparts part place List.mem_cons_self hcalm sc _ _ hfirst
          exact (hopened.andThen hpart).of_none
      exact hbefore.andThen (ih hothers hsteps.2 hrest)
    | caseConstant name =>
      obtain ⟨p, hperform, hothers⟩ := h.quiet rfl
      cases hperform
      exact ih hothers hsteps hrest
    | localClass declaration => exact hsteps.elim
    | anonymousClass creation body =>
      obtain ⟨t', hfirst, _, hothers⟩ := h.anonymousClass
      have hcopied := spans_setScopes hfirst.fits.closed (t₁.scopes.spares_snapshot here)
      exact (hcopied.andThen hfirst.spans).of_none.andThen (ih hothers hsteps hrest)

theorem Ran.calm {n : Node} (hcalm : n.Calm) (h : t.Ran (.code owner n sc) t₁ t₂) :
    Spans (fun _ => False) t₁ t₂ := by
  induction hheight : n.height using Nat.strongRecOn generalizing n sc t₁ t₂ with
  | ind height ih =>
    have hparts : ∀ part place, .visit part place ∈ n.plan → part.Calm → ∀ sc a b,
        t.Ran (.code owner part sc) a b → Spans (fun _ => False) a b := by
      intro part place hmem hpart sc a b hran
      have hbelow : part.IsBelow n := n.of_plan _ hmem
      exact ih part.height (hheight ▸ hbelow.height_lt) hpart hran rfl
    exact (h.code.sheltered hcalm.sheltered hparts).mono fun _ _ _ hid => absurd hid.1 Bool.false_ne_true

/-! ## parts that see the level as it was -/

theorem Ran.calm_at (h : t.Ran (.steps owner here inner steps) t₁ t₂) (hlevel : ∀ step ∈ steps, step.Level)
    {step : Step} (hmem : step ∈ steps) :
    ∃ rest a, t.Ran (.steps owner here inner (step :: rest)) a t₂ ∧ Spans (fun _ => False) t₁ a := by
  induction steps generalizing t₁ with
  | nil => cases hmem
  | cons first rest ih =>
    rcases List.mem_cons.mp hmem with rfl | hlater
    · exact ⟨rest, t₁, h, .refl _ h.fits.closed⟩
    have hrest := fun step hstep => hlevel step (List.mem_cons_of_mem _ hstep)
    have hfirst := hlevel first List.mem_cons_self
    cases first with
    | visit part place =>
      obtain ⟨rfl, hcalm⟩ := hfirst
      obtain ⟨sc, s, t', hplace, hpart, hothers⟩ := h.visit
      cases hplace
      obtain ⟨rest', a, hran, hspans⟩ := ih hothers hrest hlater
      exact ⟨rest', a, hran, (hpart.calm hcalm).andThen hspans⟩
    | anonymousClass creation body =>
      obtain ⟨t', hcls, _, hothers⟩ := h.anonymousClass
      have hcopied := spans_setScopes hcls.fits.closed (t₁.scopes.spares_snapshot here)
      have hbefore := hcopied.andThen hcls.spans
      obtain ⟨rest', a, hran, hspans⟩ := ih hothers hrest hlater
      exact ⟨rest', a, hran, hbefore.andThen hspans⟩
    | enter | declare | caseConstant | localClass => exact hfirst.elim

theorem Ran.calm_part (h : t.Ran (.steps owner here inner steps) t₁ t₂)
    (hlevel : ∀ step ∈ steps, step.Level) {part : Node} (hmem : .visit part .here ∈ steps) :
    ∃ a b, t.Ran (.code owner part here) a b ∧ Spans (fun _ => False) t₁ a := by
  obtain ⟨rest, a, hran, hspans⟩ := h.calm_at hlevel hmem
  obtain ⟨sc, s, b, hplace, hpart, _⟩ := hran.visit
  cases hplace
  exact ⟨a, b, hpart, hspans⟩

theorem Ran.calm_class (h : t.Ran (.steps owner here inner steps) t₁ t₂)
    (hlevel : ∀ step ∈ steps, step.Level) {creation body : Node}
    (hmem : .anonymousClass creation body ∈ steps) :
    ∃ k, t.Entered owner creation k ∧
      t.scopes.blocksOf (t.scopes.frame (t.decl k).scope).ancestors = t₁.scopes.blocks here := by
  obtain ⟨rest, a, hran, hspans⟩ := h.calm_at hlevel hmem
  obtain ⟨b, hcls, hafter, _⟩ := hran.anonymousClass
  have hhere : t₁.Houses owner here := h.fits.stands.1
  refine ⟨a.classes.size, hcls.entered, ?_⟩
  rw [hcls.captured hran.fits.stands.1 hafter]
  exact hspans.spares.blocks hhere.stands.valid fun _ _ => id

end Table

end StaticPromotion
