import Mathlib.Data.List.Basic
import StaticPromotion.Proofs.Parts

/-!
# Trees with words put in

Some modifier lists of a tree get the word `static` behind their last keyword, and every node moves to where its text has moved.
Nothing else about the tree changes, and the new word is neither named nor in a field, so whatever looks at named children or at
fields sees the same tree.

* `Edit`             where starts and ends of nodes move, and the lists that get a word;
* `Node.edit`        the edited tree; `Edit.none` changes nothing;
* `Node.plan_edit`   the plan of an edited node is the edited plan;
* `Node.modifiers_edit`   the words of a declaration: one more if its list got one.
-/

namespace StaticPromotion

structure Edit where
  start : Nat → Nat
  stop : Nat → Nat
  /-- the modifier lists that get a word -/
  lists : List Node
  start_injective : Function.Injective start
  stop_injective : Function.Injective stop

namespace Edit

def none : Edit where
  start := id
  stop := id
  lists := []
  start_injective := fun _ _ h => h
  stop_injective := fun _ _ h => h

/-- a modifier list reaches as far as a new word right behind it -/
def stopOf (e : Edit) (kind : String) (stop : Nat) : Nat :=
  if kind == "modifiers" then e.start stop else e.stop stop

def key (e : Edit) (k : Node.Key) : Node.Key :=
  (e.start k.1, e.stopOf k.2.2 k.2.1, k.2.2)

theorem key_injective (e : Edit) : Function.Injective e.key := by
  rintro ⟨start, stop, kind⟩ ⟨start', stop', kind'⟩ h
  obtain ⟨hstart, hstop, rfl⟩ : e.start start = e.start start' ∧
      e.stopOf kind stop = e.stopOf kind' stop' ∧ kind = kind' := by
    simpa [key] using h
  rw [e.start_injective hstart]
  unfold stopOf at hstop
  split at hstop
  · rw [e.start_injective hstop]
  · rw [e.stop_injective hstop]

/-- the new word, one blank behind another one -/
def wordBehind (word : Node) : Node :=
  ⟨"static", false, false, word.stop + 1, word.stop + 7, Option.none, []⟩

/-- a list with the new word behind its last keyword -/
def withWord : List Node → List Node
  | [] => []
  | c :: rest =>
    if isModifierWord c.kind && !rest.any (fun d => isModifierWord d.kind) then
      c :: wordBehind c :: rest
    else c :: withWord rest

/-! ## what does not see the new word -/

section
variable {p : Node → Bool} (hp : ∀ c, p (wordBehind c) = false)
include hp

theorem filter_withWord (cs : List Node) : (withWord cs).filter p = cs.filter p := by
  induction cs with
  | nil => rfl
  | cons c rest ih =>
    rw [withWord]
    split
    · simp only [List.filter_cons, hp, Bool.false_eq_true, if_false]
    · simp only [List.filter_cons, ih]

theorem find?_withWord (cs : List Node) : (withWord cs).find? p = cs.find? p := by
  induction cs with
  | nil => rfl
  | cons c rest ih =>
    rw [withWord]
    split
    · simp only [List.find?_cons, hp]
    · simp only [List.find?_cons, ih]

theorem any_withWord (cs : List Node) : (withWord cs).any p = cs.any p := by
  induction cs with
  | nil => rfl
  | cons c rest ih =>
    rw [withWord]
    split
    · simp only [List.any_cons, hp, Bool.false_or]
    · simp only [List.any_cons, ih]

theorem named_eraseP_withWord (cs : List Node) :
    ((withWord cs).eraseP p).filter (·.named) = (cs.eraseP p).filter (·.named) := by
  induction cs with
  | nil => rfl
  | cons c rest ih =>
    rw [withWord]
    have hword : (wordBehind c).named = false := rfl
    split
    · by_cases hc : p c = true
      · simp only [List.eraseP_cons_of_pos hc, List.filter_cons, hword, Bool.false_eq_true, if_false]
      · simp only [List.eraseP_cons_of_neg hc, List.eraseP_cons, hp, cond_false, List.filter_cons,
          hword, Bool.false_eq_true, if_false]
    · by_cases hc : p c = true
      · have hrest := filter_withWord (p := (·.named)) (fun _ => rfl) rest
        simp only [List.eraseP_cons_of_pos hc, hrest]
      · simp only [List.eraseP_cons_of_neg hc, List.filter_cons, ih]

end

theorem words_withWord (cs : List Node) (h : cs.any (fun c => isModifierWord c.kind) = true) :
    ((withWord cs).map (·.kind)).filter isModifierWord =
      (cs.map (·.kind)).filter isModifierWord ++ ["static"] := by
  induction cs with
  | nil => cases h
  | cons c rest ih =>
    rw [withWord]
    split
    · rename_i hlast
      rw [Bool.and_eq_true, Bool.not_eq_true'] at hlast
      have hnone : (rest.map (·.kind)).filter isModifierWord = [] := by
        rw [List.filter_map, List.map_eq_nil_iff, List.filter_eq_nil_iff]
        exact List.any_eq_false.mp hlast.2
      have hstatic : isModifierWord (wordBehind c).kind = true := by
        show isModifierWord "static" = true
        decide
      simp only [List.map_cons, List.filter_cons, hlast.1, hstatic, if_true, hnone]
      rfl
    · rename_i hmore
      have hrest : rest.any (fun d => isModifierWord d.kind) = true := by
        rw [List.any_cons, Bool.or_eq_true] at h
        rcases h with hc | hrest
        · rw [hc, Bool.true_and, Bool.not_eq_true', Bool.not_eq_false] at hmore
          exact hmore
        · exact hrest
      simp only [List.map_cons, List.filter_cons, ih hrest]
      split <;> rfl

end Edit

namespace Node

variable {p : Node → Bool} {cs : List Node}

/-! ## the edited tree -/

mutual

def edit (e : Edit) : Node → Node
  | n@⟨kind, named, missing, start, stop, field, children⟩ =>
    ⟨kind, named, missing, e.start start, e.stopOf kind stop, field,
      if n ∈ e.lists then Edit.withWord (editAll e children) else editAll e children⟩

def editAll (e : Edit) : List Node → List Node
  | [] => []
  | c :: rest => edit e c :: editAll e rest

end

variable (e : Edit)

theorem editAll_eq_map (cs : List Node) : editAll e cs = cs.map (edit e) := by
  induction cs with
  | nil => rfl
  | cons c rest ih => rw [editAll, ih, List.map_cons]

theorem children_edit (n : Node) : (n.edit e).children =
    if n ∈ e.lists then Edit.withWord (n.children.map (edit e)) else n.children.map (edit e) := by
  cases n
  simp only [edit, editAll_eq_map]

@[simp] theorem kind_edit (n : Node) : (n.edit e).kind = n.kind := by
  cases n
  rw [edit]

@[simp] theorem named_edit (n : Node) : (n.edit e).named = n.named := by
  cases n
  rw [edit]

@[simp] theorem missing_edit (n : Node) : (n.edit e).missing = n.missing := by
  cases n
  rw [edit]

@[simp] theorem field_edit (n : Node) : (n.edit e).field = n.field := by
  cases n
  rw [edit]

theorem start_edit (n : Node) : (n.edit e).start = e.start n.start := by
  cases n
  rw [edit]

theorem stop_edit (n : Node) : (n.edit e).stop = e.stopOf n.kind n.stop := by
  cases n
  rw [edit]

theorem key_edit (n : Node) : (n.edit e).key = e.key n.key := by
  rw [key, start_edit, stop_edit, kind_edit]
  rfl

/-- what does not see the new word sees the children, each edited -/
theorem view_children_edit {α : Type} {v : List Node → α} (h : ∀ cs, v (Edit.withWord cs) = v cs) (n : Node) :
    v (n.edit e).children = v (n.children.map (edit e)) := by
  rw [children_edit]
  split
  · exact h _
  · rfl

@[simp] theorem construct_edit (n : Node) : (n.edit e).construct = n.construct := by
  rw [construct, kind_edit, construct]

@[simp] theorem isBroken_edit (n : Node) : (n.edit e).isBroken = n.isBroken := by
  rw [isBroken, kind_edit, missing_edit, isBroken]

@[simp] theorem isIdentifier_edit (n : Node) : (n.edit e).isIdentifier = n.isIdentifier := by
  rw [isIdentifier, kind_edit, isIdentifier]

@[simp] theorem isComment_edit (n : Node) : (n.edit e).isComment = n.isComment := by
  rw [isComment, kind_edit, isComment]

@[simp] theorem inField_edit (f : String) (n : Node) : inField f (n.edit e) = inField f n := by
  rw [inField, field_edit, inField]

/-! ## children -/

theorem filter_map_edit (hp : ∀ c, p (edit e c) = p c) (cs : List Node) :
    (cs.map (edit e)).filter p = (cs.filter p).map (edit e) := by
  rw [List.filter_map]
  congr 1
  exact List.filter_congr fun c _ => hp c

theorem find?_map_edit (hp : ∀ c, p (edit e c) = p c) (cs : List Node) :
    (cs.map (edit e)).find? p = (cs.find? p).map (edit e) := by
  rw [List.find?_map]
  congr 1
  exact congrArg (cs.find? ·) (funext hp)

theorem eraseP_map_edit (hp : ∀ c, p (edit e c) = p c) (cs : List Node) :
    (cs.map (edit e)).eraseP p = (cs.eraseP p).map (edit e) := by
  rw [List.eraseP_map]
  congr 1
  exact congrArg (cs.eraseP ·) (funext hp)

theorem any_map_of_mem (hp : ∀ c ∈ cs, p (edit e c) = p c) : (cs.map (edit e)).any p = cs.any p := by
  induction cs with
  | nil => rfl
  | cons c rest ih =>
    obtain ⟨hc, hrest⟩ := List.forall_mem_cons.mp hp
    rw [List.map_cons, List.any_cons, List.any_cons, hc, ih hrest]

theorem any_map_edit (hp : ∀ c, p (edit e c) = p c) (cs : List Node) : (cs.map (edit e)).any p = cs.any p :=
  any_map_of_mem e fun c _ => hp c

@[simp] theorem namedChildren_edit (n : Node) :
    (n.edit e).namedChildren = n.namedChildren.map (edit e) := by
  rw [namedChildren, view_children_edit e (v := List.filter _) (Edit.filter_withWord fun _ => rfl),
    filter_map_edit e (named_edit e), namedChildren]

@[simp] theorem child?_edit (n : Node) (f : String) : (n.edit e).child? f = (n.child? f).map (edit e) := by
  rw [child?, view_children_edit e (v := List.find? _) (Edit.find?_withWord fun _ => rfl),
    find?_map_edit e (inField_edit e f), child?]

@[simp] theorem childrenAt_edit (n : Node) (f : String) :
    (n.edit e).childrenAt f = (n.childrenAt f).map (edit e) := by
  rw [childrenAt, view_children_edit e (v := List.filter _) (Edit.filter_withWord fun _ => rfl),
    filter_map_edit e (inField_edit e f), childrenAt]

@[simp] theorem namedBut_edit (n : Node) (f : String) :
    (n.edit e).namedBut f = (n.namedBut f).map (edit e) := by
  rw [namedBut, view_children_edit e (v := fun cs => (cs.eraseP (inField f)).filter (·.named))
    (Edit.named_eraseP_withWord fun _ => rfl), eraseP_map_edit e (inField_edit e f),
    filter_map_edit e (named_edit e), namedBut]

@[simp] theorem childKind_edit (n : Node) (f : String) : (n.edit e).childKind f = n.childKind f := by
  rw [childKind, child?_edit, Option.map_map, childKind]
  congr 1
  exact congrArg ((n.child? f).map ·) (funext (kind_edit e))

theorem any_kind_edit {kind : String} (hkind : ("static" == kind) = false) (n : Node) :
    (n.edit e).children.any (·.kind == kind) = n.children.any (·.kind == kind) := by
  rw [view_children_edit e (v := fun cs => cs.any (·.kind == kind))
    (Edit.any_withWord fun _ => hkind) n]
  exact any_map_edit e (fun c => by rw [kind_edit]) _

@[simp] theorem edit_none (n : Node) : n.edit .none = n := by
  induction n using Node.induction with
  | node n ih =>
    have hchildren : n.children.map (edit .none) = n.children := by
      conv_rhs => rw [← List.map_id n.children]
      exact List.map_congr_left ih
    have hlist : n ∉ Edit.none.lists := List.not_mem_nil
    have hsame : (n.edit .none).children = n.children := by
      rw [children_edit, if_neg hlist, hchildren]
    cases n
    rw [edit] at hsame ⊢
    simp only at hsame
    rw [hsame]
    simp only [Edit.none, Edit.stopOf, id, ite_self]

/-! ## the whole tree -/

theorem height_eq (n : Node) : n.height = heightAll n.children + 1 := by
  cases n
  rw [height]

theorem heightAll_withWord (cs : List Node) : heightAll (Edit.withWord cs) = heightAll cs := by
  induction cs with
  | nil => rfl
  | cons c rest ih =>
    rw [Edit.withWord]
    split
    · have hword : (Edit.wordBehind c).height = 1 := rfl
      have hc : 1 ≤ c.height := height_eq c ▸ Nat.le_add_left 1 _
      simp only [heightAll, hword]
      omega
    · simp only [heightAll, ih]

theorem heightAll_map (h : ∀ c ∈ cs, (edit e c).height = c.height) :
    heightAll (cs.map (edit e)) = heightAll cs := by
  induction cs with
  | nil => rfl
  | cons c rest ih =>
    obtain ⟨hc, hrest⟩ := List.forall_mem_cons.mp h
    rw [List.map_cons, heightAll, heightAll, hc, ih hrest]

@[simp] theorem height_edit (n : Node) : (n.edit e).height = n.height := by
  induction n using Node.induction with
  | node n ih =>
    have hmap : heightAll (n.children.map (edit e)) = heightAll n.children :=
      heightAll_map e ih
    rw [height_eq, view_children_edit e heightAll_withWord n, hmap, ← height_eq]

/-- some node satisfies a condition that an edit does not change, and no new word satisfies -/
theorem any_preorder_edit (hp : ∀ n, p (edit e n) = p n) (hword : ∀ c, p (Edit.wordBehind c) = false)
    (n : Node) : (n.edit e).preorder.any p = n.preorder.any p := by
  induction n using Node.induction with
  | node n ih =>
    have hview : ∀ cs, (Edit.withWord cs).any (fun c => c.preorder.any p) =
        cs.any fun c => c.preorder.any p := by
      refine Edit.any_withWord fun c => ?_
      have hleaf : (Edit.wordBehind c).preorder = [Edit.wordBehind c] := rfl
      rw [hleaf, List.any_cons, hword, List.any_nil]
      rfl
    have hmap : (n.children.map (edit e)).any (fun c => c.preorder.any p) =
        n.children.any fun c => c.preorder.any p :=
      any_map_of_mem e ih
    rw [preorder_eq, preorder_eq, List.any_cons, List.any_cons, List.any_flatMap, List.any_flatMap,
      hp, view_children_edit e (v := fun cs => cs.any fun c => c.preorder.any p) hview n, hmap]

/-! ## names that patterns and conditions bind -/

theorem patternNamesIn_withWord (component : Bool) (cs : List Node) :
    patternNamesIn component (Edit.withWord cs) = patternNamesIn component cs := by
  induction cs with
  | nil => rfl
  | cons c rest ih =>
    rw [Edit.withWord]
    have hword : (Edit.wordBehind c).named = false := rfl
    split
    · simp only [patternNamesIn, hword, Bool.not_false, if_true]
    · simp only [patternNamesIn, ih]

theorem patternNames_eq (n : Node) : n.patternNames =
    if n.kind == "type_pattern" then n.namedChildren.filter isIdentifier
    else patternNamesIn (n.kind == "record_pattern_component") n.children := by
  cases n
  rw [patternNames]
  rfl

theorem patternNamesIn_map (component : Bool)
    (h : ∀ c ∈ cs, (c.edit e).patternNames = c.patternNames.map (edit e)) :
    patternNamesIn component (cs.map (edit e)) = (patternNamesIn component cs).map (edit e) := by
  induction cs with
  | nil => rfl
  | cons c rest ih =>
    have hrest := ih fun d hd => h d (List.mem_cons_of_mem _ hd)
    simp only [List.map_cons, patternNamesIn, named_edit, kind_edit, isIdentifier_edit, hrest,
      h c List.mem_cons_self]
    split
    · rfl
    split
    · rw [List.map_append]
    split
    · rw [List.map_cons]
    · rfl

@[simp] theorem patternNames_edit (n : Node) : (n.edit e).patternNames = n.patternNames.map (edit e) := by
  -- down the tree
  induction n using Node.induction with
  | node n ih =>
    rw [patternNames_eq, patternNames_eq, kind_edit, namedChildren_edit,
      filter_map_edit e (isIdentifier_edit e),
      view_children_edit e (v := patternNamesIn _) (patternNamesIn_withWord _),
      patternNamesIn_map e _ ih]
    split <;> rfl

theorem bindingsAt_eq (f : String) (outcome : Bool) (cs : List Node) :
    bindingsAt f outcome cs = ((cs.find? (inField f)).map (bindings outcome)).getD [] := by
  induction cs with
  | nil => rfl
  | cons c rest ih =>
    rw [bindingsAt, List.find?_cons]
    split
    · rename_i hc
      rw [hc]
      rfl
    · rename_i hc
      rw [Bool.not_eq_true] at hc
      rw [hc, ih]

theorem bindingsOfContent_eq (outcome : Bool) (cs : List Node) :
    bindingsOfContent outcome cs = ((contents cs).head?.map (bindings outcome)).getD [] := by
  induction cs with
  | nil => rfl
  | cons c rest ih =>
    rw [bindingsOfContent, contents, List.filter_cons]
    split
    · rfl
    · exact ih

theorem bindings_eq (outcome : Bool) (n : Node) : n.bindings outcome =
    if n.kind == "parenthesized_expression" then
      if (contents n.children).length = 1 then
        ((contents n.children).head?.map (bindings outcome)).getD []
      else []
    else if n.kind == "unary_expression" then
      if n.childKind "operator" == "!" then
        ((n.child? "operand").map (bindings !outcome)).getD []
      else []
    else if n.kind == "binary_expression" then
      if sharesOutcome (n.childKind "operator") outcome then
        ((n.child? "left").map (bindings outcome)).getD [] ++
          ((n.child? "right").map (bindings outcome)).getD []
      else []
    else if n.kind == "instanceof_expression" && outcome then
      (n.child? "name").toList ++ ((n.child? "pattern").map patternNames).getD []
    else [] := by
  cases n
  simp only [bindings, bindingsAt_eq, bindingsOfContent_eq]
  rfl

theorem contents_edit (n : Node) : contents (n.edit e).children = (contents n.children).map (edit e) := by
  rw [contents, view_children_edit e (v := List.filter _) (Edit.filter_withWord fun _ => rfl)]
  exact filter_map_edit e (fun c => by rw [named_edit, isComment_edit]) _

theorem mem_of_mem_contents {n c : Node} (h : c ∈ contents n.children) : c ∈ n.children :=
  (List.mem_filter.mp h).1

theorem getD_map_edit {f : Node → List Node} {x : Option Node}
    (h : ∀ c, x = some c → f (c.edit e) = (f c).map (edit e)) :
    ((x.map (edit e)).map f).getD [] = ((x.map f).getD []).map (edit e) := by
  cases x with
  | none => rfl
  | some c => exact h c rfl

@[simp] theorem bindings_edit (outcome : Bool) (n : Node) :
    (n.edit e).bindings outcome = (n.bindings outcome).map (edit e) := by
  induction n using Node.induction generalizing outcome with
  | node n ih =>
    have hchildren : ∀ (outcome : Bool), ∀ c ∈ n.children,
        (c.edit e).bindings outcome = (c.bindings outcome).map (edit e) :=
      fun outcome c hc => ih c hc outcome
    have hfield : ∀ (outcome : Bool) (f : String),
        (((n.child? f).map (edit e)).map (bindings outcome)).getD [] =
          (((n.child? f).map (bindings outcome)).getD []).map (edit e) :=
      fun outcome f => getD_map_edit e fun c hc => hchildren outcome c (mem_of_child? hc)
    have hcontent : (((contents n.children).head?.map (edit e)).map (bindings outcome)).getD [] =
        (((contents n.children).head?.map (bindings outcome)).getD []).map (edit e) :=
      getD_map_edit e fun c hc =>
        hchildren outcome c (mem_of_mem_contents (List.mem_of_mem_head? hc))
    have hpattern : (((n.child? "pattern").map (edit e)).map patternNames).getD [] =
        (((n.child? "pattern").map patternNames).getD []).map (edit e) :=
      getD_map_edit e fun c _ => patternNames_edit e c
    rw [bindings_eq, bindings_eq, kind_edit, childKind_edit, contents_edit, List.length_map,
      List.head?_map, hcontent]
    simp only [child?_edit, hfield, hpattern]
    split
    · split <;> rfl
    split
    · split <;> rfl
    split
    · split
      · rw [List.map_append]
      · rfl
    split
    · rw [List.map_append]
      cases n.child? "name" <;> rfl
    · rfl

theorem conditionBindings_edit (condition : Option Node) (outcome : Bool) :
    conditionBindings (condition.map (edit e)) outcome =
      (conditionBindings condition outcome).map (edit e) :=
  getD_map_edit e fun c _ => bindings_edit e outcome c

@[simp] theorem argumentCount_edit (arguments : Option Node) :
    argumentCount (arguments.map (edit e)) = argumentCount arguments := by
  cases arguments with
  | none => rfl
  | some arguments =>
    show (contents (arguments.edit e).children).length = (contents arguments.children).length
    rw [contents_edit, List.length_map]

end Node

/-! ## plans -/

def Place.edit (e : Edit) : Place → Place
  | .here => .here
  | .inner => .inner
  | .fresh below label names => .fresh (below.edit e) label (names.map (Node.edit e))

def Step.edit (e : Edit) : Step → Step
  | .enter label names => .enter label (names.map (Node.edit e))
  | .declare name place => .declare (name.edit e) (place.edit e)
  | .visit part place => .visit (part.edit e) (place.edit e)
  | .caseConstant name => .caseConstant (name.edit e)
  | .localClass declaration => .localClass (declaration.edit e)
  | .anonymousClass creation body => .anonymousClass (creation.edit e) (body.edit e)

namespace Node

variable (e : Edit) {list : Node}

theorem visitAll_edit (place : Place) (parts : List Node) :
    visitAll (place.edit e) (parts.map (edit e)) = (visitAll place parts).map (Step.edit e) := by
  rw [visitAll, visitAll, List.map_map, List.map_map]
  rfl

theorem visitField_edit (n : Node) (f : String) (place : Place) :
    (n.edit e).visitField f (place.edit e) = (n.visitField f place).map (Step.edit e) := by
  rw [visitField, child?_edit, visitField, ← visitAll_edit]
  cases n.child? f <;> rfl

@[simp] theorem declaresForward_edit (n : Node) : (n.edit e).declaresForward = n.declaresForward := by
  rw [declaresForward, construct_edit, declaresForward]

theorem visitStatements_edit (statements : List Node) :
    visitStatements (statements.map (edit e)) = (visitStatements statements).map (Step.edit e) := by
  rw [visitStatements, visitStatements, List.map_map, List.map_map]
  refine List.map_congr_left fun s _ => ?_
  show Step.visit (s.edit e) _ = Step.visit (s.edit e) _
  congr 1
  rw [declaresForward_edit]
  split <;> rfl

theorem branch_edit (below : Place) (condition : Option Node) (outcome : Bool) :
    branch (below.edit e) (condition.map (edit e)) outcome = (branch below condition outcome).edit e := by
  rw [branch, conditionBindings_edit, branch, Place.edit]

theorem declare_name_edit (n : Node) (place : Place) :
    ((n.edit e).child? "name").toList.map (Step.declare · (place.edit e)) =
      ((n.child? "name").toList.map (Step.declare · place)).map (Step.edit e) := by
  rw [child?_edit]
  cases n.child? "name" <;> rfl

theorem declaratorSteps_edit (n : Node) (place : Place) :
    (n.edit e).declaratorSteps (place.edit e) = (n.declaratorSteps place).map (Step.edit e) := by
  rw [declaratorSteps, childrenAt_edit, List.flatMap_map, declaratorSteps, List.map_flatMap]
  refine List.flatMap_congr fun d _ => ?_
  rw [declare_name_edit, List.map_append, ← visitField_edit]
  rfl

theorem resourceSteps_edit (n : Node) : (n.edit e).resourceSteps = n.resourceSteps.map (Step.edit e) := by
  rw [resourceSteps, child?_edit, resourceSteps, namedChildren_edit]
  cases n.child? "name" with
  | none => exact visitAll_edit e .inner n.namedChildren
  | some name =>
    rw [List.map_cons, ← visitField_edit]
    rfl

theorem name_toList_edit (n : Node) :
    ((n.edit e).child? "name").toList = ((n.child? "name").toList).map (edit e) := by
  rw [child?_edit]
  cases n.child? "name" <;> rfl

@[simp] theorem parameterNames_edit (n : Node) :
    (n.edit e).parameterNames = n.parameterNames.map (edit e) := by
  rw [parameterNames, isIdentifier_edit, namedChildren_edit, List.flatMap_map, parameterNames]
  split
  · rfl
  rw [List.map_flatMap]
  refine List.flatMap_congr fun p _ => ?_
  rw [isIdentifier_edit, kind_edit, name_toList_edit, namedChildren_edit,
    filter_map_edit e (fun c => by rw [kind_edit]), List.flatMap_map]
  split
  · rfl
  split
  · rfl
  split
  · rw [List.map_flatMap]
    exact List.flatMap_congr fun d _ => name_toList_edit e d
  · rfl

theorem parameters_edit (n : Node) :
    (((n.edit e).child? "parameters").map parameterNames).getD [] =
      (((n.child? "parameters").map parameterNames).getD []).map (edit e) := by
  rw [child?_edit]
  exact getD_map_edit e fun c _ => parameterNames_edit e c

theorem caseLabelSteps_edit (n : Node) :
    (n.edit e).caseLabelSteps = n.caseLabelSteps.map (Step.edit e) := by
  rw [caseLabelSteps, namedChildren_edit, caseLabelSteps, List.map_append, List.flatMap_map,
    List.map_flatMap, filter_map_edit e (fun c => by rw [kind_edit, isIdentifier_edit])]
  congr 1
  · refine List.flatMap_congr fun c _ => ?_
    rw [kind_edit, isIdentifier_edit, patternNames_edit, List.map_map]
    split
    · rw [List.map_map]
      rfl
    split <;> rfl
  · exact visitAll_edit e .here _

theorem creationSteps_edit (n : Node) (parts : List Node) :
    (n.edit e).creationSteps (parts.map (edit e)) = (n.creationSteps parts).map (Step.edit e) := by
  rw [creationSteps, filter_map_edit e (fun c => by rw [kind_edit]), creationSteps, List.map_map,
    List.map_map]
  refine List.map_congr_left fun c _ => ?_
  show (if (c.edit e).kind == "class_body" then _ else _) = Step.edit e (if _ then _ else _)
  rw [kind_edit]
  split <;> rfl

theorem catchNames_edit (n : Node) :
    ((n.edit e).namedChildren.filter (·.kind == "catch_formal_parameter")).flatMap
        (fun p => (p.child? "name").toList) =
      ((n.namedChildren.filter (·.kind == "catch_formal_parameter")).flatMap
        fun p => (p.child? "name").toList).map (edit e) := by
  rw [namedChildren_edit, filter_map_edit e (fun c => by rw [kind_edit]), List.flatMap_map,
    List.map_flatMap]
  exact List.flatMap_congr fun p _ => name_toList_edit e p

theorem resources_edit (n : Node) :
    (((n.edit e).child? "resources").map namedChildren).getD [] =
      (((n.child? "resources").map namedChildren).getD []).map (edit e) := by
  rw [child?_edit]
  exact getD_map_edit e fun c _ => namedChildren_edit e c

theorem plan_edit (n : Node) : (n.edit e).plan = n.plan.map (Step.edit e) := by
  have hhere : ∀ f, (n.edit e).visitField f .here = (n.visitField f .here).map (Step.edit e) :=
    fun f => visitField_edit e n f .here
  have hinner : ∀ f, (n.edit e).visitField f .inner = (n.visitField f .inner).map (Step.edit e) :=
    fun f => visitField_edit e n f .inner
  have hbranch : ∀ f below condition outcome,
      (n.edit e).visitField f (branch (below.edit e) ((n.edit e).child? condition) outcome) =
        (n.visitField f (branch below (n.child? condition) outcome)).map (Step.edit e) := by
    intro f below condition outcome
    rw [child?_edit, branch_edit, visitField_edit]
  have hparts : visitAll .here (n.edit e).namedChildren =
      (visitAll .here n.namedChildren).map (Step.edit e) := by
    rw [namedChildren_edit]
    exact visitAll_edit e .here _
  have hvisit : ∀ p : Node → Bool, (∀ c, p (edit e c) = p c) →
      visitAll .here ((n.edit e).namedChildren.filter p) =
        (visitAll .here (n.namedChildren.filter p)).map (Step.edit e) := by
    intro p hp
    rw [namedChildren_edit, filter_map_edit e hp]
    exact visitAll_edit e .here _
  simp only [plan, construct_edit]
  split
  case h_1 => rw [namedChildren_edit, visitStatements_edit, List.map_cons]; rfl
  case h_2 => exact declaratorSteps_edit e n .here
  case h_3 => rfl
  case h_4 =>
    rw [namedBut_edit, visitStatements_edit, List.map_cons, List.map_append, ← hbranch]
    rfl
  case h_5 =>
    rw [List.map_append, List.map_append, ← hhere, ← hbranch, ← hbranch]
    rfl
  case h_6 =>
    rw [List.map_append, ← hhere, ← hbranch]
    rfl
  case h_7 =>
    rw [childKind_edit]
    split
    · rw [List.map_append, ← hhere, ← hbranch]
      rfl
    · rw [List.map_append, ← hhere, ← hbranch]
      rfl
    · exact hparts
  case h_8 =>
    rw [List.map_append, List.map_cons, ← hinner, ← visitField_edit, name_toList_edit]
    rfl
  case h_9 =>
    rw [catchNames_edit, List.map_cons, ← hinner]
    rfl
  case h_10 =>
    rw [resources_edit, List.flatMap_map, List.map_cons, List.map_append, List.map_append,
      List.map_flatMap, ← hinner, hvisit _ fun c => by rw [kind_edit]]
    congr 3
    exact List.flatMap_congr fun resource _ => resourceSteps_edit e resource
  case h_11 =>
    rw [parameters_edit, List.map_cons, ← hinner]
    rfl
  case h_12 => rw [namedChildren_edit, visitStatements_edit, List.map_cons]; rfl
  case h_13 =>
    rw [namedChildren_edit, List.map_cons, ← visitAll_edit]
    rfl
  case h_14 => exact caseLabelSteps_edit e n
  case h_15 => exact hhere "left"
  case h_16 => exact hvisit _ fun c => by rw [isIdentifier_edit]
  case h_17 =>
    rw [namedChildren_edit]
    exact creationSteps_edit e n _
  case h_18 => exact hparts

/-! ## declarations -/

@[simp] theorem memberNodes_edit (body : Node) :
    Table.memberNodes (body.edit e) = (Table.memberNodes body).map (edit e) := by
  rw [Table.memberNodes, namedChildren_edit, List.flatMap_map, Table.memberNodes, List.map_flatMap]
  refine List.flatMap_congr fun c _ => ?_
  rw [kind_edit, namedChildren_edit]
  split <;> rfl

/-- the keywords in a modifier list -/
def words (list : Node) : List String :=
  (list.children.map (·.kind)).filter isModifierWord

theorem modifiers_eq (n : Node) : n.modifiers =
    match n.children.find? (·.kind == "modifiers") with
    | none => ([], none)
    | some list => (list.words, some list) := rfl

theorem modifiers_snd (n : Node) : n.modifiers.2 = n.children.find? (·.kind == "modifiers") := by
  rw [modifiers_eq]
  cases n.children.find? (·.kind == "modifiers") <;> rfl

theorem modifiers_of_list {n : Node} (h : n.modifiers.2 = some list) : n.modifiers.1 = list.words := by
  rw [modifiers_snd] at h
  rw [modifiers_eq, h]

theorem modifiers_of_none {n : Node} (h : n.modifiers.2 = none) : n.modifiers.1 = [] := by
  rw [modifiers_snd] at h
  rw [modifiers_eq, h]

theorem kind_of_modifiers {n : Node} (h : n.modifiers.2 = some list) : list.kind = "modifiers" := by
  rw [modifiers_snd] at h
  have hkind := List.find?_some h
  exact eq_of_beq hkind

theorem words_edit_of_not_mem (h : list ∉ e.lists) : (list.edit e).words = list.words := by
  rw [words, children_edit, if_neg h, List.map_map, words]
  exact congrArg _ (List.map_congr_left fun c _ => kind_edit e c)

theorem words_edit_of_mem (h : list ∈ e.lists) (hwords : list.words ≠ []) :
    (list.edit e).words = list.words ++ ["static"] := by
  have hkinds : (list.children.map (edit e)).map (·.kind) = list.children.map (·.kind) := by
    rw [List.map_map]
    exact List.map_congr_left fun c _ => kind_edit e c
  rw [words, children_edit, if_pos h, Edit.words_withWord, hkinds, words]
  obtain ⟨word, hword⟩ := List.exists_mem_of_ne_nil _ hwords
  obtain ⟨hmem, hkeyword⟩ := List.mem_filter.mp hword
  obtain ⟨c, hc, rfl⟩ := List.mem_map.mp hmem
  rw [any_map_edit e fun d => by rw [kind_edit]]
  exact List.any_eq_true.mpr ⟨c, hc, hkeyword⟩

theorem find?_modifiers_edit (n : Node) : (n.edit e).children.find? (·.kind == "modifiers") =
    (n.children.find? (·.kind == "modifiers")).map (edit e) := by
  rw [view_children_edit e (v := List.find? _) (Edit.find?_withWord fun _ => rfl),
    find?_map_edit e fun c => by rw [kind_edit]]

theorem modifiers_edit (n : Node) : (n.edit e).modifiers =
    ((n.modifiers.2.map fun list => (list.edit e).words).getD [], n.modifiers.2.map (edit e)) := by
  rw [modifiers_eq, find?_modifiers_edit, modifiers_eq]
  cases n.children.find? (·.kind == "modifiers") <;> rfl

end Node

end StaticPromotion
