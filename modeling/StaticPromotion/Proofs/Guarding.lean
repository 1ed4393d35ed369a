import StaticPromotion.Proofs.Blocks
import StaticPromotion.Proofs.Independence

/-!
# What code declares stays in it

A plan fills levels that it has opened, and goes on in levels that it has opened or to parts that fill none. So code which is
no declaration itself, and in which declarations stand among statements or members only, leaves all levels that were there
before as they were.

* `Scopes.Keeps.perform`   what one step keeps;
* `Node.Contained`         code that keeps its declarations to itself, by the positions in which they stand;
* `Indexes.keeps`          what the pass over a unit keeps, by induction over the derivation.
-/

namespace StaticPromotion

/-! ## what a step keeps -/

namespace Scopes

theorem Keeps.perform {base s : Scopes} (hkeeps : base.Keeps s) {P : Node → Prop} {source : SourceUnit}
    {here inner : ScopeId} {step : Step} {p : Progress} (hstep : step.Guarded P (base.frames.size ≤ ·) here inner)
    (h : step.perform source here inner s = .ok p) :
    base.Keeps p.scopes ∧ step.Leaves (base.frames.size ≤ ·) inner p.inner := by
  cases Step.performs h with
  | enter hopen =>
    obtain ⟨rfl, hopened⟩ := hkeeps.childDeclaring hopen
    exact ⟨hopened, hkeeps.size⟩
  | declare hplace hfilled =>
    obtain ⟨hlocated, hfree⟩ := hkeeps.locate hplace (base.frames.size ≤ ·) fun _ hnew => hnew
    exact ⟨hlocated.declareNodes (hfree hstep) hfilled, rfl⟩
  | visit hplace => exact ⟨(hkeeps.locate hplace (base.frames.size ≤ ·) fun _ hnew => hnew).1, rfl⟩
  | caseConstant | localClass | anonymousClass => exact ⟨hkeeps, rfl⟩

end Scopes

/-! ## positions of declarations -/

namespace Node

variable {n : Node}

def classBodyKinds : List String :=
  ["class_body", "interface_body", "enum_body", "annotation_type_body", "enum_body_declarations"]

/-- a node whose children are members of a class -/
def isClassBody (n : Node) : Bool :=
  classBodyKinds.contains n.kind

/-- a declaration may stand among statements, a class also among members -/
def allows (n c : Node) : Bool :=
  !c.declaresForward ||
    match n.construct with
    | .block | .forLoop | .caseGroup => true
    | .caseRule => c.construct == .caseLabel
    | _ => n.isClassBody && c.isClassDeclaration

def isSeated (n : Node) : Bool :=
  n.children.all n.allows

/-- a member of a class may hold members of another one -/
def holdsOthers (n : Node) : Bool :=
  n.isClassBody || n.kind == "enum_constant"

/-- members of a class, with a class among them or inside them -/
def bringsClass (n : Node) : Bool :=
  n.holdsOthers && n.preorder.any isClassDeclaration

/-- members with classes may stand where a class has its members -/
def houses (n c : Node) : Bool :=
  !c.bringsClass || n.holdsOthers || n.isClassDeclaration || (n.construct == .creation && c.kind == "class_body")

theorem construct_of_isClassBody (h : n.isClassBody = true) : n.construct = .unknown := by
  have hall : ∀ kind ∈ classBodyKinds, Construct.ofKind kind = .unknown := by decide
  exact hall n.kind (List.contains_iff_mem.mp h)

theorem isClassBody_of_construct (h : n.construct ≠ .unknown) : n.isClassBody = false :=
  Bool.eq_false_iff.mpr fun hbody => h (construct_of_isClassBody hbody)

theorem quiet_of_isSeated {c : Node} (h : n.isSeated = true) (hc : c ∈ n.children)
    (hblock : n.construct.hasStatements = false)
    (hbody : c.isClassDeclaration = true → n.isClassBody = false) : c.declaresForward = false := by
  have hallows := List.all_eq_true.mp h c hc
  cases hdeclares : c.declaresForward with
  | false => rfl
  | true =>
    rw [allows, hdeclares, Bool.not_true, Bool.false_or] at hallows
    unfold Construct.hasStatements at hblock
    split at hallows
    all_goals simp_all

/-- code that leaves the level it stands in as it is -/
structure Contained (n : Node) : Prop where
  seated : ∀ k ∈ n.preorder, k.isSeated = true
  housed : ∀ k ∈ n.preorder, ∀ c ∈ k.children, k.houses c = true
  quiet : n.declaresForward = false
  bare : n.bringsClass = false

theorem Contained.child {c : Node} (h : n.Contained) (hc : c ∈ n.children)
    (hblock : n.construct.hasStatements = false) (hbody : n.construct = .creation → c.kind ≠ "class_body") :
    c.Contained := by
  have hinside : ∀ k ∈ c.preorder, k ∈ n.preorder := fun k hk =>
    mem_preorder_trans hk (mem_preorder_of_mem_children hc (mem_preorder_self n))
  -- a class in `c` is one in `n`
  have hclass : ∀ k ∈ c.preorder, k.isClassDeclaration = true → n.holdsOthers = false := by
    intro k hk hdeclares
    refine Bool.eq_false_iff.mpr fun hholds => Bool.eq_false_iff.mp h.bare ?_
    rw [bringsClass, hholds, Bool.true_and]
    exact List.any_eq_true.mpr ⟨k, hinside k hk, hdeclares⟩
  have hseated := h.seated n (mem_preorder_self n)
  refine ⟨fun k hk => h.seated k (hinside k hk), fun k hk => h.housed k (hinside k hk), ?_, ?_⟩
  · refine quiet_of_isSeated hseated hc hblock fun hdeclares => ?_
    exact (Bool.or_eq_false_iff.mp (hclass c (mem_preorder_self c) hdeclares)).1
  · refine Bool.eq_false_iff.mpr fun hbrings => ?_
    have hhouses := h.housed n (mem_preorder_self n) c hc
    obtain ⟨_, hany⟩ := Bool.and_eq_true_iff.mp hbrings
    obtain ⟨k, hk, hdeclares⟩ := List.any_eq_true.mp hany
    have hplain : n.isClassDeclaration = false := by
      refine isClassDeclaration_of_construct fun flavour hconstruct => ?_
      have hquiet := h.quiet
      rw [declaresForward, hconstruct] at hquiet
      cases hquiet
    rw [houses, hbrings, hclass k hk hdeclares, hplain, Bool.not_true, Bool.false_or, Bool.false_or,
      Bool.false_or, Bool.and_eq_true] at hhouses
    exact hbody (eq_of_beq hhouses.1) (eq_of_beq hhouses.2)

theorem Contained.plan (h : n.Contained) {free : ScopeId → Prop} {here inner : ScopeId} :
    Step.AllGuarded Contained free here inner n.plan :=
  guarded_plan h.quiet fun hblock _ hc hbody => h.child hc hblock hbody

end Node

/-! ## the pass over a unit -/

/-- what is left to do is in levels after those of `base`, or is contained -/
def Duty.Confined (base : Scopes) (t : Table) : Duty → Prop
  | .code _ n sc => base.frames.size ≤ sc ∨ n.Contained
  | .steps _ here inner rest => Step.AllGuarded Node.Contained (base.frames.size ≤ ·) here inner rest
  | .members c _ | .member c _ | .own c _ => c < t.classes.size ∧ base.frames.size ≤ (t.decl c).scope
  | .cls _ _ _ _ | .unit _ => True

open Table

theorem Table.scope_of_settled {t t' : Table} {c : ClassId} (h : (t'.decl c).settled = (t.decl c).settled) :
    (t'.decl c).scope = (t.decl c).scope :=
  congrArg (·.2.2.2.2) h

theorem Indexes.keeps {base : Scopes} {duty : Duty} {t t' : Table} (h : Indexes duty t t')
    (hduty : duty.Confined base t) (hkeeps : base.Keeps t.scopes) : base.Keeps t'.scopes := by
  induction h with
  | @code _ node scope _ _ _ ih =>
    refine ih ?_ hkeeps
    rcases hduty with hlater | hcontained
    · exact Step.allGuarded_of_free hlater hlater _
    · exact hcontained.plan
  | done | noMembers | finished => exact hkeeps
  | quiet perform _ _ ih =>
    obtain ⟨hperformed, hleaves⟩ := hkeeps.perform hduty.1 perform
    exact ih (hduty.2 _ hleaves) hperformed
  | visit located _ _ ihfirst ihothers =>
    obtain ⟨hlocated, hfree⟩ := hkeeps.locate located (base.frames.size ≤ ·) fun _ hnew => hnew
    exact ihothers (hduty.2 _ rfl) (ihfirst (hduty.1.imp_left hfree) hlocated)
  | localClass _ _ _ ihfirst ihothers =>
    refine ihothers (hduty.2 _ rfl) ?_
    have hfirst := ihfirst trivial (hkeeps.snapshot _)
    unfold nameLocal
    split
    · exact hfirst
    · exact hfirst.modifyFrame hduty.1 _
  | anonymousClass _ _ _ ihfirst ihothers =>
    exact ihothers (hduty.2 _ rfl) (ihfirst trivial (hkeeps.snapshot _))
  | @cls _ _ _ _ t t₁ _ registers _ ih =>
    obtain ⟨shown, hscopes⟩ := registers.scopes
    have hscope : (t₁.decl t.classes.size).scope = t.scopes.frames.size := congrArg (·.2.2.2) registers.fixed
    exact ih ⟨registers.size ▸ Nat.lt_succ_self _, hscope ▸ hkeeps.size⟩ (hscopes ▸ hkeeps.add _)
  | members first _ ihfirst ihothers =>
    have hstays := first.stays
    refine ihothers ⟨Nat.lt_of_lt_of_le hduty.1 hstays.size, ?_⟩ (ihfirst hduty hkeeps)
    rw [scope_of_settled (hstays.settled _ hduty.1)]
    exact hduty.2
  | idle _ amends | noCode amends => exact amends.scopes ▸ hkeeps
  | fields _ _ ih | constant _ _ _ ih => exact ih hduty hkeeps
  | method _ _ adds opened _ _ ih =>
    have hadded := adds.scopes ▸ hkeeps
    obtain ⟨rfl, hopened⟩ := hadded.childDeclaring opened
    exact ih (.inl hadded.size) (hopened.declareAll hadded.size _)
  | constantBody _ _ _ _ _ ihcodes ihnested => exact ihnested trivial (ihcodes hduty hkeeps)
  | block _ _ ih => exact ih (.inl hduty.2) hkeeps
  | nested _ _ amends ih => exact amends.scopes ▸ ih trivial hkeeps
  | own amends first _ ihfirst ihothers =>
    have hamended := amends.scopes ▸ hkeeps
    have hstays := amends.stays.trans ((stays_setScopes (Scopes.grows_child _ _ _)).trans first.stays)
    refine ihothers ⟨Nat.lt_of_lt_of_le hduty.1 hstays.size, ?_⟩ (ihfirst (.inl hamended.size) (hamended.child _ _))
    rw [scope_of_settled (hstays.settled _ hduty.1)]
    exact hduty.2
  | aside amends _ ih => exact ih trivial (amends.scopes ▸ hkeeps)
  | topLevel _ _ amends _ ihfirst ihothers =>
    exact ihothers trivial (amends.scopes ▸ ihfirst trivial hkeeps)

end StaticPromotion
