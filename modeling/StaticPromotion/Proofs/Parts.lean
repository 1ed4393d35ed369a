import StaticPromotion.Table.Indexing

/-!
# Parts of a tree, and parts that a plan names

* `Node.decEq`      trees can be compared;
* `Node.mem_preorder_trans`   what lies below a node of a tree lies in the tree;
* `Step.Of n`       what the steps in the plan of `n` are about: `Node.of_plan`;
* `Step.Within P`   the nodes that a step goes on to satisfy `P`, and an anonymous class is the body of a creation.
-/

namespace StaticPromotion

namespace Node

/-! ## equality -/

mutual

def decEq : (a b : Node) → Decidable (a = b)
  | ⟨kind, named, missing, start, stop, field, children⟩,
    ⟨kind', named', missing', start', stop', field', children'⟩ =>
    if h : kind = kind' ∧ named = named' ∧ missing = missing' ∧ start = start' ∧ stop = stop' ∧
        field = field' then
      match decEqAll children children' with
      | isTrue hchildren => isTrue (by
          obtain ⟨rfl, rfl, rfl, rfl, rfl, rfl⟩ := h
          rw [hchildren])
      | isFalse hchildren => isFalse fun heq => by
          cases heq
          exact hchildren rfl
    else isFalse fun heq => by
      cases heq
      exact h ⟨rfl, rfl, rfl, rfl, rfl, rfl⟩

def decEqAll : (as bs : List Node) → Decidable (as = bs)
  | [], [] => isTrue rfl
  | [], _ :: _ => isFalse fun heq => by cases heq
  | _ :: _, [] => isFalse fun heq => by cases heq
  | a :: as, b :: bs =>
    match decEq a b, decEqAll as bs with
    | isTrue h, isTrue hs => isTrue (by rw [h, hs])
    | isFalse h, _ => isFalse fun heq => by
        cases heq
        exact h rfl
    | _, isFalse hs => isFalse fun heq => by
        cases heq
        exact hs rfl

end

instance : DecidableEq Node := decEq

/-! ## nodes of a tree -/

/-- an element is the first that satisfies a condition, or it is left when that one is taken out -/
theorem find?_or_mem_eraseP {α : Type} {p : α → Bool} {xs : List α} {x : α} (h : x ∈ xs) :
    xs.find? p = some x ∨ x ∈ xs.eraseP p := by
  induction xs with
  | nil => cases h
  | cons y ys ih =>
    by_cases hy : p y = true
    · rw [List.find?_cons_of_pos hy, List.eraseP_cons_of_pos hy]
      rcases List.mem_cons.mp h with rfl | h
      · exact .inl rfl
      · exact .inr h
    · rw [List.find?_cons_of_neg hy, List.eraseP_cons_of_neg hy]
      rcases List.mem_cons.mp h with rfl | h
      · exact .inr List.mem_cons_self
      · exact (ih h).imp id (List.mem_cons_of_mem _)

theorem mem_preorder_self (n : Node) : n ∈ n.preorder := by
  rw [preorder_eq]
  exact List.mem_cons_self

theorem mem_preorder_iff {a n : Node} : a ∈ n.preorder ↔ a = n ∨ ∃ c ∈ n.children, a ∈ c.preorder := by
  rw [preorder_eq, List.mem_cons, List.mem_flatMap]

theorem mem_preorder_trans {a b root : Node} (h : a ∈ b.preorder) (h' : b ∈ root.preorder) :
    a ∈ root.preorder := by
  induction root using Node.induction with
  | node root ih =>
    rcases mem_preorder_iff.mp h' with rfl | ⟨c, hc, hb⟩
    · exact h
    · exact mem_preorder_iff.mpr (.inr ⟨c, hc, ih c hc hb⟩)

theorem mem_preorder_of_mem_children {c n root : Node} (hc : c ∈ n.children)
    (hn : n ∈ root.preorder) : c ∈ root.preorder :=
  mem_preorder_trans (mem_preorder_iff.mpr (.inr ⟨c, hc, mem_preorder_self c⟩)) hn

theorem mem_preorder_of_mem_memberNodes {member body root : Node} (h : member ∈ Table.memberNodes body)
    (hbody : body ∈ root.preorder) : member ∈ root.preorder := by
  obtain ⟨c, hc, hmember⟩ := List.mem_flatMap.mp h
  have hin := mem_preorder_of_mem_children (mem_of_mem_namedChildren hc) hbody
  split at hmember
  · exact mem_preorder_of_mem_children (mem_of_mem_namedChildren hmember) hin
  · cases List.mem_singleton.mp hmember
    exact hin

end Node

/-! ## kinds -/

theorem Construct.ofKind_of_classKind {kind : String} {flavour : ClassKind}
    (h : ClassKind.ofKind? kind = some flavour) : Construct.ofKind kind = .classDeclaration flavour := by
  unfold ClassKind.ofKind? at h
  split at h <;> cases h <;> rfl

/-! ## what a plan consists of -/

namespace Node

/-- strictly below -/
def IsBelow (part n : Node) : Prop :=
  ∃ c ∈ n.children, part ∈ c.preorder

theorem isBelow_of_mem {n c : Node} (h : c ∈ n.children) : c.IsBelow n :=
  ⟨c, h, mem_preorder_self c⟩

theorem isBelow_named {n c : Node} (h : c ∈ n.namedChildren) : c.IsBelow n :=
  isBelow_of_mem (mem_of_mem_namedChildren h)

theorem isBelow_field {n c : Node} {f : String} (h : c ∈ (n.child? f).toList) : c.IsBelow n :=
  isBelow_of_mem (mem_of_child? (Option.mem_toList.mp h))

theorem IsBelow.trans {a b n : Node} (h : a.IsBelow b) (h' : b.IsBelow n) : a.IsBelow n := by
  obtain ⟨d, hd, ha⟩ := h
  obtain ⟨c, hc, hb⟩ := h'
  exact ⟨c, hc, mem_preorder_trans ha (mem_preorder_of_mem_children hd hb)⟩

theorem IsBelow.mem_preorder {part n root : Node} (h : part.IsBelow n) (hn : n ∈ root.preorder) :
    part ∈ root.preorder := by
  obtain ⟨c, hc, hpart⟩ := h
  exact mem_preorder_trans hpart (mem_preorder_of_mem_children hc hn)

/-- what children inherit, all nodes of a tree inherit -/
theorem forall_mem_preorder {P : Node → Prop} (hchild : ∀ p c, P p → c ∈ p.children → P c) {n part : Node} (hn : P n)
    (h : part ∈ n.preorder) : P part := by
  induction n using Node.induction with
  | node n ih =>
    rcases mem_preorder_iff.mp h with rfl | ⟨c, hc, hpart⟩
    · exact hn
    · exact ih c hc (hchild n c hn hc) hpart

theorem height_le_of_mem_preorder {part n : Node} (h : part ∈ n.preorder) : part.height ≤ n.height := by
  refine forall_mem_preorder (P := fun p => p.height ≤ n.height) (fun p c hp hc => ?_) (Nat.le_refl _) h
  exact Nat.le_trans (Nat.le_of_lt (height_lt_of_mem_children hc)) hp

theorem IsBelow.height_lt {part n : Node} (h : part.IsBelow n) : part.height < n.height := by
  obtain ⟨c, hc, hpart⟩ := h
  exact Nat.lt_of_le_of_lt (height_le_of_mem_preorder hpart) (height_lt_of_mem_children hc)

end Node

def Step.Of (n : Node) : Step → Prop
  | .visit part _ | .caseConstant part => part.IsBelow n
  | .localClass declaration => declaration = n ∧ ∃ kind, n.construct = .classDeclaration kind
  | .anonymousClass creation body => creation = n ∧ n.construct = .creation ∧
      body ∈ n.namedChildren ∧ body.kind = "class_body"
  | .enter _ _ | .declare _ _ => True

namespace Node

section
variable {n : Node} {parts : List Node}

theorem of_visitAll (h : ∀ c ∈ parts, c.IsBelow n) (place : Place) :
    ∀ step ∈ visitAll place parts, step.Of n := by
  intro step hstep
  obtain ⟨c, hc, rfl⟩ := List.mem_map.mp hstep
  exact h c hc

theorem of_visitStatements (h : ∀ c ∈ parts, c.IsBelow n) : ∀ step ∈ visitStatements parts, step.Of n := by
  intro step hstep
  obtain ⟨c, hc, rfl⟩ := List.mem_map.mp hstep
  exact h c hc

theorem of_declaratorSteps (place : Place) : ∀ step ∈ n.declaratorSteps place, step.Of n := by
  intro step hstep
  obtain ⟨d, hd, hstep⟩ := List.mem_flatMap.mp hstep
  rcases List.mem_append.mp hstep with hdeclare | hvisit
  · obtain ⟨_, _, rfl⟩ := List.mem_map.mp hdeclare
    trivial
  · refine of_visitAll (fun c hc => ?_) _ step hvisit
    exact (isBelow_field hc).trans (isBelow_of_mem (mem_of_mem_childrenAt hd))

theorem of_resourceSteps {resource : Node} (h : resource.IsBelow n) :
    ∀ step ∈ resource.resourceSteps, step.Of n := by
  intro step hstep
  unfold resourceSteps at hstep
  split at hstep
  · rcases List.mem_cons.mp hstep with rfl | hvisit
    · trivial
    · exact of_visitAll (fun c hc => (isBelow_field hc).trans h) _ step hvisit
  · exact of_visitAll (fun c hc => (isBelow_named hc).trans h) _ step hstep

theorem of_caseLabelSteps : ∀ step ∈ n.caseLabelSteps, step.Of n := by
  intro step hstep
  rcases List.mem_append.mp hstep with hnames | hvisit
  · obtain ⟨c, hc, hstep⟩ := List.mem_flatMap.mp hnames
    split at hstep
    · obtain ⟨_, _, rfl⟩ := List.mem_map.mp hstep
      trivial
    · split at hstep
      · cases List.mem_singleton.mp hstep
        exact isBelow_named hc
      · cases hstep
  · exact of_visitAll (fun c hc => isBelow_named (List.mem_filter.mp hc).1) _ step hvisit

theorem of_creationSteps (hcreation : n.construct = .creation) (hparts : ∀ c ∈ parts, c ∈ n.namedChildren) :
    ∀ step ∈ n.creationSteps parts, step.Of n := by
  intro step hstep
  obtain ⟨c, hc, rfl⟩ := List.mem_map.mp hstep
  have hmem := hparts c (List.mem_filter.mp hc).1
  split
  · rename_i hbody
    exact ⟨rfl, hcreation, hmem, beq_iff_eq.mp hbody⟩
  · exact isBelow_named hmem

/-- a plan goes on below its node, and the classes that it meets are declared by the node itself -/
theorem of_plan (n : Node) : ∀ step ∈ n.plan, step.Of n := by
  have hnamed : ∀ c ∈ n.namedChildren, c.IsBelow n := fun c hc => isBelow_named hc
  have hsome : ∀ p : Node → Bool, ∀ c ∈ n.namedChildren.filter p, c.IsBelow n :=
    fun p c hc => hnamed c (List.mem_filter.mp hc).1
  have hfield : ∀ f place, ∀ step ∈ n.visitField f place, step.Of n :=
    fun f place => of_visitAll (fun c hc => isBelow_field hc) place
  unfold plan
  split
  · exact List.forall_mem_cons.mpr ⟨trivial, of_visitStatements hnamed⟩
  · exact of_declaratorSteps _
  · rename_i kind hconstruct
    exact List.forall_mem_singleton.mpr ⟨rfl, kind, hconstruct⟩
  · refine List.forall_mem_cons.mpr ⟨trivial, List.forall_mem_append.mpr ⟨?_, hfield _ _⟩⟩
    exact of_visitStatements fun c hc => isBelow_of_mem (mem_of_mem_namedBut hc)
  · exact List.forall_mem_append.mpr ⟨List.forall_mem_append.mpr ⟨hfield _ _, hfield _ _⟩, hfield _ _⟩
  · exact List.forall_mem_append.mpr ⟨hfield _ _, hfield _ _⟩
  · split
    · exact List.forall_mem_append.mpr ⟨hfield _ _, hfield _ _⟩
    · exact List.forall_mem_append.mpr ⟨hfield _ _, hfield _ _⟩
    · exact of_visitAll hnamed _
  · exact List.forall_mem_append.mpr ⟨hfield _ _, List.forall_mem_cons.mpr ⟨trivial, hfield _ _⟩⟩
  · exact List.forall_mem_cons.mpr ⟨trivial, hfield _ _⟩
  · refine List.forall_mem_cons.mpr ⟨trivial, List.forall_mem_append.mpr
      ⟨List.forall_mem_append.mpr ⟨?_, hfield _ _⟩, of_visitAll (hsome _) _⟩⟩
    intro step hstep
    obtain ⟨resource, hresource, hstep⟩ := List.mem_flatMap.mp hstep
    refine of_resourceSteps ?_ step hstep
    cases hlist : n.child? "resources" with
    | none =>
      rw [hlist] at hresource
      cases hresource
    | some list =>
      rw [hlist] at hresource
      exact (isBelow_named hresource).trans (isBelow_of_mem (mem_of_child? hlist))
  · exact List.forall_mem_cons.mpr ⟨trivial, hfield _ _⟩
  · exact List.forall_mem_cons.mpr ⟨trivial, of_visitStatements hnamed⟩
  · exact List.forall_mem_cons.mpr ⟨trivial, of_visitAll hnamed _⟩
  · exact of_caseLabelSteps
  · exact hfield _ _
  · exact of_visitAll (hsome _) _
  · rename_i hcreation
    exact of_creationSteps hcreation fun _ hc => hc
  · exact of_visitAll hnamed _

end

end Node

def Step.Within (P : Node → Prop) : Step → Prop
  | .visit part _ => P part
  | .localClass declaration => P declaration
  | .anonymousClass creation body => P creation ∧ creation.construct = .creation ∧
      body ∈ creation.namedChildren ∧ body.kind = "class_body"
  | .enter _ _ | .declare _ _ | .caseConstant _ => True

/-- a step in the plan of a node goes on to nodes that inherit what the node has -/
theorem Step.Of.within {P : Node → Prop} (hchild : ∀ p c, P p → c ∈ p.children → P c) {n : Node} (hn : P n) {step : Step}
    (h : step.Of n) : step.Within P := by
  cases step with
  | visit part place =>
    obtain ⟨c, hc, hpart⟩ := h
    exact Node.forall_mem_preorder hchild (hchild n c hn hc) hpart
  | localClass declaration => exact h.1 ▸ hn
  | anonymousClass creation body =>
    obtain ⟨rfl, hconstruct, hbody, hkind⟩ := h
    exact ⟨hn, hconstruct, hbody, hkind⟩
  | enter | declare | caseConstant => trivial

end StaticPromotion
