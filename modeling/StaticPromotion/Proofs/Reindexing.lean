import StaticPromotion.Proofs.Following
import StaticPromotion.Proofs.Indexed

/-!
# The table of an edited unit

If the texts that are read and the lines of all nodes are kept by an edit, then the pass over the edited unit does step by step
what it did over the unit itself: it enters the same classes, opens the same scopes and declares the same names. So it builds
the edited table.

* `Table.edit e u'`         the table over the edited tree, and over its text `u'`;
* `Node.declaredTexts`      the nodes whose text is read where a declaration is met;
* `Rereads e u u'`          the edited unit `u'` gives the same texts and lines as `u`;
* `Rereads.Mirrors R x y`   from a table and the edited one, `x` and `y` give related values and again a table and the edited
                            one, or the same fault;
* `Rereads.mirrors_indexRegion`   the pass mirrors itself, by induction on its depth;
* `Rereads.ofSource`        so both passes together build the edited table.
-/

namespace StaticPromotion

/-! ## edited tables -/

def Method.edit (e : Edit) (m : Method) : Method :=
  { m with
    node := m.node.map (Node.edit e)
    modifiers := (m.node.map fun n => (n.edit e).modifiers.1).getD m.modifiers }

def ClassDecl.edit (e : Edit) (d : ClassDecl) : ClassDecl :=
  { d with body := d.body.map (Node.edit e), methods := d.methods.map (Method.edit e) }

namespace Table

def edit (e : Edit) (u' : SourceUnit) (t : Table) : Table :=
  { t with
    source := u'
    classes := t.classes.map (ClassDecl.edit e)
    declared := t.declared.map fun entry => (e.key entry.1, entry.2) }

variable (e : Edit) (u' : SourceUnit) (t : Table)

@[simp] theorem decl_edit (c : ClassId) : (t.edit e u').decl c = (t.decl c).edit e := by
  rw [decl, decl, Array.getD_eq_getD_getElem?, Array.getD_eq_getD_getElem?, edit, Array.getElem?_map]
  cases t.classes[c]? with
  | some d => rfl
  | none => exact (congrArg (fun methods => { (default : ClassDecl) with methods }) Array.map_empty).symm

theorem method_edit (m : MethodId) : (t.edit e u').method m = (t.method m).edit e := by
  rw [method, decl_edit, method, Array.getD_eq_getD_getElem?, Array.getD_eq_getD_getElem?,
    ClassDecl.edit, Array.getElem?_map]
  cases (t.decl m.owner).methods[m.index]? with
  | some m => rfl
  | none => rfl

theorem classFor_edit (n : Node) : (t.edit e u').classFor (n.edit e) = t.classFor n := by
  have hfind : (t.declared.map fun entry => (e.key entry.1, entry.2)).find? (·.1 == (n.edit e).key) =
      (t.declared.find? (·.1 == n.key)).map fun entry => (e.key entry.1, entry.2) := by
    rw [List.find?_map]
    congr 2
    funext entry
    show (e.key entry.1 == (n.edit e).key) = (entry.1 == n.key)
    rw [Node.key_edit, Bool.eq_iff_iff, beq_iff_eq, beq_iff_eq]
    exact e.key_injective.eq_iff
  show ((t.declared.map _).find? _).map _ = _
  rw [hfind, classFor, Option.map_map]
  rfl

theorem restates_edit (hheight : u'.root.height = t.source.root.height) :
    t.Restates e (t.edit e u') where
  size := Array.size_map
  scopes := rfl
  package := rfl
  topLevel := rfl
  importedTypes := rfl
  staticImports := rfl
  decl c := by
    rw [decl_edit]
    rfl
  methodCount c := by
    rw [decl_edit]
    exact Array.size_map
  method m := by
    rw [method_edit]
    rfl
  classFor n := classFor_edit e u' t n
  height := hheight

theorem displayName_edit (c : ClassId) : (t.edit e u').displayName c = t.displayName c := by
  simp only [displayName, decl_edit]
  rfl

end Table

/-! ## the texts of declarations -/

namespace Node

def parameterParts (n : Node) : List Node :=
  ((n.child? "parameters").map namedChildren).getD []

def declaredTexts (n : Node) : List Node :=
  (n.child? "name").toList ++ ((n.child? "superclass").bind (·.namedChildren.head?)).toList ++
    Table.interfaceNodes n ++ (n.child? "type").toList ++
    (n.parameterParts.flatMap fun p =>
      (p.child? "name").toList ++ ((Table.parameterType? p).bind (·.1)).toList) ++
    (if n.kind == "import_declaration" then (Table.importTarget? n).toList
      else if n.kind == "package_declaration" then n.namedChildren.filter Table.isName
      else [])

variable (e : Edit)

theorem parameterParts_edit (n : Node) : (n.edit e).parameterParts = n.parameterParts.map (edit e) := by
  rw [parameterParts, child?_edit, Option.map_map, parameterParts]
  cases n.child? "parameters" with
  | none => rfl
  | some list => exact namedChildren_edit e list

theorem parameterType?_edit (param : Node) : Table.parameterType? (param.edit e) =
    (Table.parameterType? param).map fun type => (type.1.map (edit e), type.2) := by
  have hfind : (param.edit e).namedChildren.find? (fun c =>
      c.kind != "modifiers" && c.kind != "variable_declarator") =
        (param.namedChildren.find? fun c =>
          c.kind != "modifiers" && c.kind != "variable_declarator").map (edit e) := by
    rw [namedChildren_edit]
    exact find?_map_edit e (fun c => by rw [kind_edit]) _
  rw [Table.parameterType?, Table.parameterType?, kind_edit, child?_edit, hfind]
  split
  · rfl
  · split <;> rfl

theorem interfaceNodes_edit (n : Node) :
    Table.interfaceNodes (n.edit e) = (Table.interfaceNodes n).map (edit e) := by
  rw [Table.interfaceNodes, namedChildren_edit, filter_map_edit e fun c => by rw [kind_edit],
    List.flatMap_map, Table.interfaceNodes, List.map_flatMap]
  refine List.flatMap_congr fun clause _ => ?_
  rw [namedChildren_edit, List.flatMap_map, List.map_flatMap]
  exact List.flatMap_congr fun c _ => namedChildren_edit e c

theorem superclass_edit (n : Node) : ((n.edit e).child? "superclass").bind (·.namedChildren.head?) =
    ((n.child? "superclass").bind (·.namedChildren.head?)).map (edit e) := by
  rw [child?_edit]
  cases n.child? "superclass" with
  | none => rfl
  | some clause => simp only [Option.map_some, Option.bind_some, namedChildren_edit, List.head?_map]

theorem importTarget?_edit (n : Node) :
    Table.importTarget? (n.edit e) = (Table.importTarget? n).map (edit e) := by
  have hany : (n.edit e).namedChildren.any (·.kind == "asterisk") =
      n.namedChildren.any (·.kind == "asterisk") := by
    rw [namedChildren_edit]
    exact any_map_edit e (fun c => by rw [kind_edit]) _
  rw [Table.importTarget?, hany, Table.importTarget?]
  split
  · rfl
  · rw [namedChildren_edit]
    exact find?_map_edit e (fun c => by rw [Table.isName, kind_edit, Table.isName]) _

end Node

/-! ## units that read the same -/

/-- a node of the tree -/
def SourceUnit.Has (u : SourceUnit) (n : Node) : Prop :=
  n ∈ u.root.preorder

theorem SourceUnit.Has.child {u : SourceUnit} {n c : Node} (h : u.Has n) (hc : c ∈ n.children) : u.Has c :=
  Node.mem_preorder_of_mem_children hc h

structure Rereads (e : Edit) (u u' : SourceUnit) : Prop where
  root : u'.root = u.root.edit e
  texts : ∀ n, u.Has n → SameTexts e u u' (n.readTexts ++ n.declaredTexts)
  lines : ∀ n, u.Has n → u'.line (n.edit e) = u.line n
  lists : ∀ list ∈ e.lists, list.kind = "modifiers"
  /-- only methods get a word -/
  methods : ∀ n, u.Has n → ∀ list ∈ e.lists, n.modifiers.2 = some list →
    Table.MemberKind.ofKind n.kind = .method

namespace Rereads

variable {e : Edit} {u u' : SourceUnit} (M : Rereads e u u') {α β : Type}

variable {γ : Type} {f g : ClassDecl → ClassDecl} {n node : Node} {kind : ClassKind}

section
include M

theorem readTexts {n : Node} (hn : u.Has n) : SameTexts e u u' n.readTexts :=
  (M.texts n hn).subset (List.subset_append_left _ _)

theorem declaredTexts {n : Node} (hn : u.Has n) : SameTexts e u u' n.declaredTexts :=
  (M.texts n hn).subset (List.subset_append_right _ _)

theorem name {n : Node} (hn : u.Has n) : SameTexts e u u' (n.child? "name").toList := by
  refine (M.declaredTexts hn).subset fun p hp => ?_
  simp only [Node.declaredTexts, List.append_assoc]
  exact List.mem_append_left _ hp

theorem superclass {n : Node} (hn : u.Has n) :
    SameTexts e u u' ((n.child? "superclass").bind (·.namedChildren.head?)).toList := by
  refine (M.declaredTexts hn).subset fun p hp => ?_
  simp only [Node.declaredTexts, List.append_assoc]
  exact List.mem_append_right _ (List.mem_append_left _ hp)

theorem interfaces {n : Node} (hn : u.Has n) : SameTexts e u u' (Table.interfaceNodes n) := by
  refine (M.declaredTexts hn).subset fun p hp => ?_
  simp only [Node.declaredTexts, List.append_assoc]
  exact List.mem_append_right _ (List.mem_append_right _ (List.mem_append_left _ hp))

theorem type {n : Node} (hn : u.Has n) : SameTexts e u u' (n.child? "type").toList := by
  refine (M.declaredTexts hn).subset fun p hp => ?_
  simp only [Node.declaredTexts, List.append_assoc]
  exact List.mem_append_right _ (List.mem_append_right _ (List.mem_append_right _
    (List.mem_append_left _ hp)))

theorem parameter {n param : Node} (hn : u.Has n) (hparam : param ∈ n.parameterParts) :
    SameTexts e u u' ((param.child? "name").toList ++
      ((Table.parameterType? param).bind (·.1)).toList) := by
  refine (M.declaredTexts hn).subset fun p hp => ?_
  simp only [Node.declaredTexts, List.append_assoc]
  exact List.mem_append_right _ (List.mem_append_right _ (List.mem_append_right _
    (List.mem_append_right _ (List.mem_append_left _ (List.mem_flatMap.mpr ⟨param, hparam, hp⟩)))))

/-- of a class or a field -/
theorem modifiers {n : Node} (hn : u.Has n) (hkind : Table.MemberKind.ofKind n.kind ≠ .method) :
    (n.edit e).modifiers.1 = n.modifiers.1 := by
  rw [Node.modifiers_edit]
  cases hlist : n.modifiers.2 with
  | none => exact (Node.modifiers_of_none hlist).symm
  | some list =>
    have hmem : list ∉ e.lists := fun hmem => hkind (M.methods n hn list hmem hlist)
    rw [Node.modifiers_of_list hlist]
    exact Node.words_edit_of_not_mem e hmem

end

/-! ## steps that mirror each other -/

/-- what is known of a table while it is built -/
def Built (_ : Rereads e u u') (t : Table) : Prop :=
  t.source = u ∧ ∀ c body, (t.decl c).body = some body → u.Has body

def Mirrors (R : α → β → Prop) (x : Build α) (y : Build β) : Prop :=
  ∀ t, M.Built t → Lockstep.Outcomes
    (fun p q => R p.1 q.1 ∧ q.2 = p.2.edit e u' ∧ M.Built p.2) (x t) (y (t.edit e u'))

/-- of steps that give no value -/
abbrev MirrorRuns (x y : Build Unit) : Prop :=
  M.Mirrors (fun _ _ => True) x y

variable {M} {R : α → β → Prop} {r : α → β}

theorem Mirrors.of_ok {x : Build α} {y : Build β} (h : M.Mirrors R x y) {t t₁ : Table} (ht : M.Built t)
    {a : α} (hx : x t = .ok (a, t₁)) :
    ∃ b, y (t.edit e u') = .ok (b, t₁.edit e u') ∧ R a b ∧ M.Built t₁ := by
  have hboth := h t ht
  rw [hx] at hboth
  cases hy : y (t.edit e u') with
  | error fault =>
    rw [hy] at hboth
    exact hboth.elim
  | ok r =>
    obtain ⟨b, t₂⟩ := r
    rw [hy] at hboth
    obtain ⟨hab, rfl, hbuilt⟩ := hboth
    exact ⟨b, rfl, hab, hbuilt⟩

theorem mirrors_pure {x : α} {y : β} (h : R x y) : M.Mirrors R (pure x) (pure y) :=
  fun _ ht => ⟨h, rfl, ht⟩

theorem Mirrors.bind {δ : Type} {Q : γ → δ → Prop} {x : Build α} {y : Build β} {f : α → Build γ}
    {g : β → Build δ} (h : M.Mirrors R x y) (hnext : ∀ p q, R p q → M.Mirrors Q (f p) (g q)) :
    M.Mirrors Q (x >>= f) (y >>= g) := by
  intro t ht
  refine Lockstep.Outcomes.bind (h t ht) ?_
  rintro ⟨p, t₁⟩ ⟨q, _⟩ ⟨hpq, rfl, ht₁⟩
  exact hnext p q hpq t₁ ht₁

theorem Mirrors.andThen {x y : Build Unit} {Q : α → β → Prop} {f : Build α} {g : Build β}
    (h : M.MirrorRuns x y) (hnext : M.Mirrors Q f g) : M.Mirrors Q (x >>= fun _ => f) (y >>= fun _ => g) :=
  h.bind fun _ _ _ => hnext

theorem Mirrors.bindEq {δ : Type} {Q : γ → δ → Prop} {x y : Build α} {f : α → Build γ} {g : α → Build δ}
    (h : M.Mirrors Eq x y) (hnext : ∀ p, M.Mirrors Q (f p) (g p)) : M.Mirrors Q (x >>= f) (y >>= g) := by
  refine h.bind fun p q hpq => ?_
  rw [← hpq]
  exact hnext p

theorem mirrors_get {Q : α → β → Prop} {f : Table → Build α} {g : Table → Build β}
    (h : ∀ t, M.Built t → M.Mirrors Q (f t) (g (t.edit e u'))) : M.Mirrors Q (get >>= f) (get >>= g) :=
  fun t ht => h t ht t ht

theorem mirrors_lift (x : Except Fault α) : M.Mirrors Eq (liftM x : Build α) (liftM x : Build α) := by
  intro t ht
  cases x with
  | ok v => exact ⟨rfl, rfl, ht⟩
  | error fault => exact rfl

theorem mirrors_liftMap {x : Except Fault α} :
    M.Mirrors (fun p q => x = .ok p ∧ q = r p) (liftM x : Build α) (liftM (x.map r) : Build β) := by
  intro t ht
  cases x with
  | ok v => exact ⟨⟨rfl, rfl⟩, rfl, ht⟩
  | error fault => exact rfl

theorem mirrors_modify {f g : Table → Table}
    (h : ∀ t, M.Built t → g (t.edit e u') = (f t).edit e u' ∧ M.Built (f t)) :
    M.MirrorRuns (modify f) (modify g) :=
  fun t ht => ⟨trivial, (h t ht).1, (h t ht).2⟩

theorem mirrors_forM {xs : List α} {ys : List β} (hys : ys = xs.map r) {f : α → Build Unit}
    {g : β → Build Unit} (h : ∀ x ∈ xs, M.MirrorRuns (f x) (g (r x))) :
    M.MirrorRuns (xs.forM f) (ys.forM g) := by
  subst hys
  induction xs with
  | nil => exact mirrors_pure trivial
  | cons x xs ih =>
    exact (h x List.mem_cons_self).andThen (ih fun y hy => h y (List.mem_cons_of_mem _ hy))

theorem mirrors_mapM {xs : List α} {ys : List β} (hys : ys = xs.map r) {f : α → Build γ} {g : β → Build γ}
    (h : ∀ x ∈ xs, M.Mirrors Eq (f x) (g (r x))) : M.Mirrors Eq (xs.mapM f) (ys.mapM g) := by
  subst hys
  induction xs with
  | nil =>
    rw [List.map_nil, List.mapM_nil, List.mapM_nil]
    exact mirrors_pure rfl
  | cons x xs ih =>
    rw [List.map_cons, List.mapM_cons, List.mapM_cons]
    refine (h x List.mem_cons_self).bindEq fun first => ?_
    exact (ih fun y hy => h y (List.mem_cons_of_mem _ hy)).bindEq fun others => mirrors_pure rfl

/-! ## steps of the build -/

theorem mirrors_buildText (h : u'.text (n.edit e) = u.text n) :
    M.Mirrors Eq (Table.buildText n) (Table.buildText (n.edit e)) := by
  refine mirrors_get fun t ht => ?_
  show M.Mirrors Eq (liftM (t.source.text n)) (liftM (u'.text (n.edit e)))
  rw [h, ht.1]
  exact mirrors_lift _

theorem mirrors_optionText {n : Option Node} (h : SameTexts e u u' n.toList) :
    M.Mirrors Eq (n.mapM Table.buildText) ((n.map (Node.edit e)).mapM Table.buildText) := by
  cases n with
  | none => exact mirrors_pure rfl
  | some n => exact (mirrors_buildText (h n List.mem_cons_self)).bindEq fun _ => mirrors_pure rfl

theorem mirrors_buildLine (hn : u.Has n) :
    M.Mirrors Eq (Table.buildLine n) (Table.buildLine (n.edit e)) := by
  refine mirrors_get fun t ht => mirrors_pure ?_
  show t.source.line n = u'.line (n.edit e)
  rw [M.lines n hn, ht.1]

theorem edit_modify (t : Table) (c : ClassId) (h : ∀ d, g (d.edit e) = (f d).edit e) :
    (t.classes.map (ClassDecl.edit e)).modify c g = (t.classes.modify c f).map (ClassDecl.edit e) := by
  refine Array.ext_getElem? fun k => ?_
  rw [Array.getElem?_modify, Array.getElem?_map, Array.getElem?_map, Array.getElem?_modify]
  split
  · cases t.classes[k]? with
    | none => rfl
    | some d => exact congrArg some (h d)
  · rfl

theorem edit_classes_modify (t : Table) (c : ClassId) (h : ∀ d, g (d.edit e) = (f d).edit e) :
    { t.edit e u' with classes := (t.edit e u').classes.modify c g } =
      Table.edit e u' { t with classes := t.classes.modify c f } := by
  show { t.edit e u' with classes := (t.classes.map (ClassDecl.edit e)).modify c g } = _
  rw [edit_modify t c h]
  rfl

theorem Built.modifyClass {t : Table} (ht : M.Built t) (c : ClassId) (hbody : ∀ d, (f d).body = d.body) :
    M.Built { t with classes := t.classes.modify c f } := by
  refine ⟨ht.1, fun k body hk => ?_⟩
  rw [Table.decl, Array.getD_eq_getD_getElem?, Array.getElem?_modify] at hk
  refine ht.2 k body ?_
  rw [Table.decl, Array.getD_eq_getD_getElem?]
  split at hk
  · cases hdecl : t.classes[k]? with
    | none =>
      rw [hdecl] at hk
      exact hk
    | some d =>
      rw [hdecl] at hk
      exact (hbody d).symm.trans hk
  · exact hk

theorem mirrors_modifyClass (c : ClassId) (h : ∀ d, g (d.edit e) = (f d).edit e)
    (hbody : ∀ d, (f d).body = d.body) : M.MirrorRuns (Table.modifyClass c f) (Table.modifyClass c g) := by
  exact mirrors_modify fun t ht => ⟨edit_classes_modify t c h, ht.modifyClass c hbody⟩

theorem mirrors_modifyScopes (change : Scopes → Scopes) :
    M.MirrorRuns (modify fun t => { t with scopes := change t.scopes })
      (modify fun t => { t with scopes := change t.scopes }) :=
  mirrors_modify fun _ ht => ⟨rfl, ht⟩

theorem mirrors_openScope (make : Scopes → ScopeId × Scopes) :
    M.Mirrors Eq (Table.openScope make) (Table.openScope make) :=
  fun _ ht => ⟨rfl, rfl, ht⟩

theorem mirrors_register {d d' : ClassDecl} (parent : ScopeId) (hd : d' = d.edit e)
    (hbody : ∀ body, d.body = some body → u.Has body) :
    M.Mirrors Eq (Table.register node d parent) (Table.register (node.edit e) d' parent) := by
  subst hd
  refine mirrors_get fun t ht => ?_
  have hsize : (t.edit e u').classes.size = t.classes.size := Array.size_map
  rw [hsize]
  refine Mirrors.andThen (mirrors_modify fun t₁ ht₁ => ⟨?_, ht₁.1, fun c body hc => ?_⟩) ?_
  · show { t₁.edit e u' with
      classes := (t₁.classes.map (ClassDecl.edit e)).push (d.edit e)
      declared := ((node.edit e).key, t.classes.size) ::
        t₁.declared.map fun entry : Node.Key × ClassId => (e.key entry.1, entry.2) } = _
    rw [← Array.map_push, Node.key_edit]
    rfl
  · rw [Table.decl, Array.getD_eq_getD_getElem?, Array.getElem?_push] at hc
    split at hc
    · exact hbody body hc
    · refine ht₁.2 c body ?_
      rw [Table.decl, Array.getD_eq_getD_getElem?]
      exact hc
  · refine mirrors_get fun t₂ ht₂ => ?_
    rw [Table.displayName_edit]
    refine (mirrors_openScope _).bindEq fun scope => ?_
    exact Mirrors.andThen (mirrors_modifyClass _ (fun _ => rfl) fun _ => rfl) (mirrors_pure rfl)

theorem mirrors_addField (c : ClassId) (field : Field) :
    M.MirrorRuns (Table.addField c field) (Table.addField c field) :=
  mirrors_modifyClass c (fun _ => rfl) fun _ => rfl

theorem mirrors_addMethod (c : ClassId) (m : Method) :
    M.Mirrors Eq (Table.addMethod c m) (Table.addMethod c (m.edit e)) := by
  refine mirrors_get fun t ht => ?_
  have hsize : ((t.edit e u').decl c).methods.size = (t.decl c).methods.size := by
    rw [Table.decl_edit]
    exact Array.size_map
  rw [hsize]
  refine Mirrors.andThen (mirrors_modifyClass c (fun d => ?_) fun _ => rfl) (mirrors_pure rfl)
  show { d.edit e with methods := (d.methods.map (Method.edit e)).push (m.edit e) } = _
  rw [← Array.map_push]
  rfl

/-! ## classes -/

theorem mirrors_declareComponents (c : ClassId) (hnode : u.Has node) :
    M.MirrorRuns (Table.declareComponents c node) (Table.declareComponents c (node.edit e)) := by
  refine mirrors_forM (Node.parameterParts_edit e node) fun param hparam => ?_
  have hin : u.Has param := by
    unfold Node.parameterParts at hparam
    cases hlist : node.child? "parameters" with
    | none =>
      rw [hlist] at hparam
      cases hparam
    | some list =>
      rw [hlist] at hparam
      exact (hnode.child (Node.mem_of_child? hlist)).child (Node.mem_of_mem_namedChildren hparam)
  have hname := (M.parameter hnode hparam).subset (List.subset_append_left _ _)
  unfold Table.declareComponent
  rw [Node.child?_edit]
  cases hchild : param.child? "name" with
  | none => exact mirrors_pure trivial
  | some nameNode =>
    rw [hchild] at hname
    refine (mirrors_buildText (hname nameNode List.mem_cons_self)).bindEq fun name => ?_
    refine (mirrors_buildLine hin).bindEq fun line => ?_
    refine (mirrors_addField c _).andThen ?_
    exact (mirrors_addMethod c { name, modifiers := ["public"], line }).bindEq fun _ => mirrors_pure trivial

theorem kind_isInterface (t : Table) (outer : Option CodeOwner) :
    (outer.any fun o => ((t.edit e u').decl o.cls).kind.isInterface) =
      outer.any fun o => (t.decl o.cls).kind.isInterface := by
  simp only [Table.decl_edit]
  rfl

theorem outersOf_edit (t : Table) (outer : Option ClassId) :
    (t.edit e u').outersOf outer = t.outersOf outer := by
  cases outer with
  | none => rfl
  | some o =>
    simp only [Table.outersOf, Table.decl_edit]
    rfl

theorem edit_implicitMethods (kind : ClassKind) :
    (Table.implicitMethods kind).map (Method.edit e) = Table.implicitMethods kind := by
  cases kind <;> simp [Table.implicitMethods, Method.edit]

theorem ofKind_ne_method (h : ClassKind.ofKind? n.kind = some kind) :
    Table.MemberKind.ofKind n.kind ≠ .method := by
  unfold ClassKind.ofKind? at h
  split at h
  case h_6 => cases h
  all_goals
    rename_i hkind
    rw [hkind]
    decide

theorem mirrors_enterClass (outer : Option CodeOwner)
    (isLocal : Bool) (parent : ScopeId) (hkind : ClassKind.ofKind? node.kind = some kind)
    (hnode : u.Has node) : M.Mirrors Eq (Table.enterClass node kind outer isLocal parent)
      (Table.enterClass (node.edit e) kind outer isLocal parent) := by
  refine mirrors_get fun t ht => ?_
  dsimp only
  rw [kind_isInterface, outersOf_edit, M.modifiers hnode (ofKind_ne_method hkind),
    Node.child?_edit e node "name", Node.superclass_edit, Node.interfaceNodes_edit,
    Node.child?_edit e node "body"]
  refine (mirrors_optionText (M.name hnode)).bindEq fun name => ?_
  refine (mirrors_optionText (M.superclass hnode)).bindEq fun superclass => ?_
  refine (mirrors_mapM rfl fun n hn => mirrors_buildText (M.interfaces hnode n hn)).bindEq
    fun interfaces => ?_
  refine (mirrors_buildLine hnode).bindEq fun line => ?_
  refine mirrors_register parent ?_ fun body hbody => hnode.child (Node.mem_of_child? hbody)
  rw [ClassDecl.edit, edit_implicitMethods]

theorem mirrors_declareClass (outer : Option CodeOwner)
    (isLocal : Bool) (parent : ScopeId) (hkind : ClassKind.ofKind? node.kind = some kind)
    (hnode : u.Has node) : M.Mirrors Eq (Table.declareClass node kind outer isLocal parent)
      (Table.declareClass (node.edit e) kind outer isLocal parent) := by
  refine (mirrors_enterClass outer isLocal parent hkind hnode).bindEq fun c => ?_
  split
  · exact (mirrors_declareComponents c hnode).andThen (mirrors_pure rfl)
  · exact mirrors_pure rfl

theorem mirrors_declareAnonymous {body : Node} (outer : CodeOwner) (parent : ScopeId)
    (supertype : Option ClassId) (hnode : u.Has node) (hbody : u.Has body) :
    M.Mirrors Eq (Table.declareAnonymous node body outer parent supertype)
      (Table.declareAnonymous (node.edit e) (body.edit e) outer parent supertype) := by
  have hwritten : (if supertype.isSome then none else (node.edit e).child? "type") =
      (if supertype.isSome then none else node.child? "type").map (Node.edit e) := by
    split
    · rfl
    · exact Node.child?_edit e node "type"
  have htexts : SameTexts e u u' (if supertype.isSome then none else node.child? "type").toList := by
    split
    · exact fun n hn => absurd hn List.not_mem_nil
    · exact M.type hnode
  refine mirrors_get fun t ht => ?_
  dsimp only
  rw [hwritten, outersOf_edit]
  refine (mirrors_optionText htexts).bindEq fun superclass => ?_
  refine (mirrors_buildLine hnode).bindEq fun line => ?_
  refine mirrors_register parent ?_ fun body' hbody' => ?_
  · rw [ClassDecl.edit, Array.map_empty]
    rfl
  · cases hbody'
    exact hbody

/-! ## methods -/

theorem mirrors_optionalText {n : Option Node} (h : SameTexts e u u' n.toList) :
    u'.optionalText (n.map (Node.edit e)) = u.optionalText n := by
  cases n with
  | none => rfl
  | some n => exact h n List.mem_cons_self

theorem mirrors_methodName (c : ClassId) (hnode : u.Has node) :
    M.Mirrors Eq (Table.methodName c node) (Table.methodName c (node.edit e)) := by
  have hname := M.name hnode
  unfold Table.methodName
  rw [Node.child?_edit]
  cases hchild : node.child? "name" with
  | none =>
    refine mirrors_get fun t ht => mirrors_pure ?_
    rw [Table.decl_edit]
    rfl
  | some n =>
    rw [hchild] at hname
    exact mirrors_buildText (hname n List.mem_cons_self)

theorem parameterTypes_edit (node : Node) :
    (node.edit e).parameterParts.filterMap Table.parameterType? =
      (node.parameterParts.filterMap Table.parameterType?).map
        fun type => (type.1.map (Node.edit e), type.2) := by
  rw [Node.parameterParts_edit, List.filterMap_map, List.map_filterMap]
  congr 1
  funext param
  exact Node.parameterType?_edit e param

theorem mirrors_makeMethod (c : ClassId) (hnode : u.Has node) :
    M.Mirrors (fun m m' => m' = m.edit e ∧ m.node = some node) (Table.makeMethod c node)
      (Table.makeMethod c (node.edit e)) := by
  refine mirrors_get fun t ht => ?_
  have htypes := parameterTypes_edit (e := e) node
  unfold Node.parameterParts at htypes
  dsimp only
  rw [htypes]
  refine Mirrors.bindEq (mirrors_mapM rfl fun type htype => ?_) fun paramTypes => ?_
  · obtain ⟨param, hparam, hsome⟩ := List.mem_filterMap.mp htype
    have htexts : SameTexts e u u' type.1.toList := by
      refine (M.parameter hnode hparam).subset fun n hn => List.mem_append_right _ ?_
      rw [hsome]
      exact hn
    show M.Mirrors Eq (liftM (t.source.optionalText type.1) >>= _)
      (liftM (u'.optionalText (type.1.map (Node.edit e))) >>= _)
    rw [mirrors_optionalText htexts, ht.1]
    exact (mirrors_lift _).bindEq fun text => mirrors_pure rfl
  · refine (mirrors_methodName c hnode).bindEq fun name => ?_
    refine (mirrors_buildLine hnode).bindEq fun line => mirrors_pure ⟨?_, rfl⟩
    simp only [Method.edit, Option.map_some, Option.getD_some, Node.kind_edit, List.any_map]
    rfl

end Rereads

/-! ## regions -/

namespace Table

def Region.edit (e : Edit) : Region → Region
  | .code owner node scope => .code owner (node.edit e) scope
  | .members cls body => .members cls (body.edit e)

def Region.root : Region → Node
  | .code _ node _ => node
  | .members _ body => body

/-- what an action goes on to lies in the tree -/
def Within (root : Node) : Action → Prop
  | .visit part _ => part ∈ root.preorder
  | .localClass declaration _ => declaration ∈ root.preorder
  | .anonymousClass creation body _ => creation ∈ root.preorder ∧ creation.Enters (some body)
  | .none | .caseConstant _ _ => True

theorem within_of_perform {root : Node} {source : SourceUnit} {here inner : ScopeId} {s : Scopes}
    {step : Step} {done : Progress} (hstep : step.Within (· ∈ root.preorder))
    (h : step.perform source here inner s = .ok done) : Within root done.action := by
  cases Step.performs h with
  | enter | declare | caseConstant => trivial
  | visit | localClass => exact hstep
  | @anonymousClass creation body =>
    obtain ⟨hin, hconstruct, hbody, hkind⟩ := hstep
    refine ⟨hin, ?_⟩
    rw [Node.Enters, if_pos hconstruct]
    exact ⟨body, hbody, hkind, rfl⟩

end Table

namespace Rereads

variable {e : Edit} {u u' : SourceUnit} {M : Rereads e u u'} {node : Node}

/-- the regions of the tree are gone over in the same way -/
def OnRegions (M : Rereads e u u') (index index' : Table.Region → Build Unit) : Prop :=
  ∀ r, u.Has r.root → M.MirrorRuns (index r) (index' (r.edit e))

theorem mirrors_declareField (c : ClassId) (isStatic : Bool) (hnode : u.Has node) :
    M.MirrorRuns (Table.declareField c isStatic node)
      (Table.declareField c isStatic (node.edit e)) := by
  have hname := M.name hnode
  unfold Table.declareField
  rw [Node.child?_edit]
  cases hchild : node.child? "name" with
  | none => exact mirrors_pure trivial
  | some nameNode =>
    rw [hchild] at hname
    refine (mirrors_buildText (hname nameNode List.mem_cons_self)).bindEq fun name => ?_
    exact (mirrors_buildLine hnode).bindEq fun line => mirrors_addField c _

theorem mirrors_openMethodScope (hnode : u.Has node) (label : String) (classScope : ScopeId) :
    M.Mirrors Eq (Table.openMethodScope node label classScope)
      (Table.openMethodScope (node.edit e) label classScope) := by
  have hnames : SameTexts e u u' (((node.child? "parameters").map Node.parameterNames).getD []) :=
    (M.readTexts hnode).subset fun _ => Node.mem_readTexts_parameter
  refine mirrors_get fun t ht => ?_
  dsimp only
  rw [Node.parameters_edit]
  show M.Mirrors Eq (liftM (t.scopes.childDeclaring t.source classScope label _) >>= _)
    (liftM (t.scopes.childDeclaring u' classScope label _) >>= _)
  rw [hnames.childDeclaring, ht.1]
  refine (mirrors_lift _).bindEq fun opened => ?_
  exact (mirrors_modifyScopes fun _ => opened.2).andThen (mirrors_pure rfl)

section
variable {index index' : Table.Region → Build Unit} (onRegions : M.OnRegions index index') {member : Node}
include onRegions

theorem mirrors_indexOwnCode (c : ClassId) (label : String) {code : Option Node}
    (hcode : ∀ n, code = some n → u.Has n) :
    M.MirrorRuns (Table.indexOwnCode index c label code)
      (Table.indexOwnCode index' c label (code.map (Node.edit e))) := by
  cases code with
  | none => exact mirrors_pure trivial
  | some n =>
    refine mirrors_get fun t ht => ?_
    rw [Table.decl_edit]
    exact (mirrors_openScope _).bindEq fun scope => onRegions (.code ⟨c, none⟩ n scope) (hcode n rfl)

theorem mirrors_indexDeclarator (c : ClassId) (isStatic : Bool) {declarator : Node}
    (hdeclarator : u.Has declarator) :
    M.MirrorRuns (Table.indexDeclarator index c isStatic declarator)
      (Table.indexDeclarator index' c isStatic (declarator.edit e)) := by
  refine (mirrors_declareField c isStatic hdeclarator).andThen ?_
  rw [Node.child?_edit]
  exact mirrors_indexOwnCode onRegions c _ fun n hn => hdeclarator.child (Node.mem_of_child? hn)

theorem mirrors_indexFields (c : ClassId) (hkind : Table.MemberKind.ofKind member.kind = .field)
    (hmember : u.Has member) :
    M.MirrorRuns (Table.indexFields index c member) (Table.indexFields index' c (member.edit e)) := by
  have hwords : (member.edit e).modifiers.1 = member.modifiers.1 := by
    refine M.modifiers hmember ?_
    rw [hkind]
    decide
  refine mirrors_get fun t ht => ?_
  dsimp only
  rw [Table.decl_edit, hwords, Node.kind_edit, Node.childrenAt_edit]
  refine mirrors_forM rfl fun declarator hdeclarator => ?_
  exact mirrors_indexDeclarator onRegions c _ (hmember.child (Node.mem_of_mem_childrenAt hdeclarator))

theorem mirrors_indexMethod (c : ClassId) (hmember : u.Has member) :
    M.MirrorRuns (Table.indexMethod index c member) (Table.indexMethod index' c (member.edit e)) := by
  refine (mirrors_makeMethod c hmember).bind ?_
  rintro m _ ⟨rfl, hnode⟩
  refine (mirrors_addMethod c m).bindEq fun id => ?_
  have hbody : (m.edit e).body = m.body.map (Node.edit e) := by
    rw [Method.body, Method.edit, Method.body, hnode]
    exact Node.child?_edit e member "body"
  rw [hbody]
  cases hsome : m.body with
  | none => exact mirrors_pure trivial
  | some body =>
    have hin : u.Has body := by
      rw [Method.body, hnode] at hsome
      exact hmember.child (Node.mem_of_child? hsome)
    refine mirrors_get fun t ht => ?_
    dsimp only
    rw [Table.decl_edit, Node.kind_edit]
    refine (mirrors_openMethodScope hmember _ _).bindEq fun scope => ?_
    refine (mirrors_modifyScopes fun s => s.declareAll scope _).andThen ?_
    exact onRegions (.code ⟨c, some id⟩ body scope) hin

theorem mirrors_indexConstantBody (c : ClassId) (hmember : u.Has member) :
    M.MirrorRuns (Table.indexConstantBody index c member)
      (Table.indexConstantBody index' c (member.edit e)) := by
  unfold Table.indexConstantBody
  rw [Node.child?_edit]
  cases hchild : member.child? "body" with
  | none => exact mirrors_pure trivial
  | some body =>
    have hbody : u.Has body := hmember.child (Node.mem_of_child? hchild)
    refine mirrors_get fun t ht => ?_
    rw [Table.decl_edit]
    refine (mirrors_declareAnonymous _ _ _ hmember hbody).bindEq fun nested => ?_
    exact onRegions (.members nested body) hbody

theorem mirrors_indexConstant (c : ClassId) (hmember : u.Has member) :
    M.MirrorRuns (Table.indexConstant index c member)
      (Table.indexConstant index' c (member.edit e)) := by
  refine (mirrors_declareField c true hmember).andThen (Mirrors.andThen ?_ ?_)
  · rw [Node.child?_edit]
    exact mirrors_indexOwnCode onRegions c _ fun n hn => hmember.child (Node.mem_of_child? hn)
  · exact mirrors_indexConstantBody onRegions c hmember

theorem mirrors_indexBody (c : ClassId) :
    M.MirrorRuns (Table.indexBody index c) (Table.indexBody index' c) := by
  refine mirrors_get fun t ht => ?_
  rw [Table.decl_edit]
  cases hbody : (t.decl c).body with
  | none =>
    simp only [ClassDecl.edit, hbody]
    exact mirrors_pure trivial
  | some body =>
    simp only [ClassDecl.edit, hbody]
    exact onRegions (.members c body) (ht.2 c body hbody)

theorem mirrors_named {kind : ClassKind} (outer : Option CodeOwner) (isLocal : Bool) (parent : ScopeId)
    (hkind : ClassKind.ofKind? node.kind = some kind) (hnode : u.Has node)
    {record record' : ClassId → String → Build Unit}
    (hrecord : ∀ c name, M.MirrorRuns (record c name) (record' c name)) :
    M.MirrorRuns
      (do
        let c ← Table.declareClass node kind outer isLocal parent
        Table.indexBody index c
        if let some name := ((← get).decl c).properName then record c name)
      (do
        let c ← Table.declareClass (node.edit e) kind outer isLocal parent
        Table.indexBody index' c
        if let some name := ((← get).decl c).properName then record' c name) := by
  refine (mirrors_declareClass outer isLocal parent hkind hnode).bindEq fun c => ?_
  refine (mirrors_indexBody onRegions c).andThen (mirrors_get fun t ht => ?_)
  rw [Table.decl_edit]
  have hname : ((t.decl c).edit e).properName = (t.decl c).properName := rfl
  rw [hname]
  cases (t.decl c).properName with
  | none => exact mirrors_pure trivial
  | some name => exact hrecord c name

theorem mirrors_indexMember (c : ClassId) (hmember : u.Has member) :
    M.MirrorRuns (Table.indexMember index c member) (Table.indexMember index' c (member.edit e)) := by
  refine mirrors_get fun t ht => ?_
  dsimp only
  rw [Table.decl_edit, Node.kind_edit]
  cases hkind : Table.MemberKind.ofKind member.kind with
  | field => exact mirrors_indexFields onRegions c hkind hmember
  | method => exact mirrors_indexMethod onRegions c hmember
  | constant => exact mirrors_indexConstant onRegions c hmember
  | block => exact onRegions (.code ⟨c, none⟩ member _) hmember
  | staticBlock => exact onRegions (.code ⟨c, none⟩ member _) hmember
  | other => exact mirrors_pure trivial
  | nested kind =>
    refine mirrors_named onRegions _ _ _ (Table.ofKind?_of_nested hkind) hmember fun nested name => ?_
    exact mirrors_modifyClass c (fun _ => rfl) fun _ => rfl

theorem mirrors_indexAction (owner : CodeOwner) {action : Action} (haction : Table.Within u.root action) :
    M.MirrorRuns (Table.indexAction index owner action)
      (Table.indexAction index' owner (action.edit e)) := by
  cases action with
  | none => exact mirrors_pure trivial
  | caseConstant name scope => exact mirrors_pure trivial
  | visit part scope => exact onRegions (.code owner part scope) haction
  | localClass declaration scope =>
    refine (mirrors_openScope _).bindEq fun captured => ?_
    rw [Node.kind_edit]
    cases hkind : ClassKind.ofKind? declaration.kind with
    | none => exact mirrors_pure trivial
    | some kind =>
      refine mirrors_named onRegions _ _ _ hkind haction fun c name => ?_
      exact mirrors_modifyScopes fun s => s.declareType scope name c
  | anonymousClass creation body scope =>
    have hbody : u.Has body := SourceUnit.Has.child haction.1 (Node.mem_of_enters haction.2)
    refine (mirrors_openScope _).bindEq fun captured => ?_
    refine (mirrors_declareAnonymous _ _ _ haction.1 hbody).bindEq fun c => ?_
    exact onRegions (.members c body) hbody

theorem mirrors_indexSteps (owner : CodeOwner) (scope inner : ScopeId) {steps : List Step}
    (htexts : ∀ step ∈ steps, SameTexts e u u' step.names) (hwithin : ∀ step ∈ steps, step.Within u.Has) :
    M.MirrorRuns (Table.indexSteps index owner scope inner steps)
      (Table.indexSteps index' owner scope inner (steps.map (Step.edit e))) := by
  induction steps generalizing inner with
  | nil => exact mirrors_pure trivial
  | cons step steps ih =>
    refine mirrors_get fun t ht => ?_
    show M.MirrorRuns (liftM (step.perform t.source scope inner t.scopes) >>= _)
      (liftM ((step.edit e).perform u' scope inner t.scopes) >>= _)
    rw [(htexts step List.mem_cons_self).perform, ht.1]
    refine mirrors_liftMap.bind ?_
    rintro done _ ⟨hperform, rfl⟩
    have haction := Table.within_of_perform (hwithin step List.mem_cons_self) hperform
    have hrest := ih done.inner (fun s hs => htexts s (List.mem_cons_of_mem _ hs))
      fun s hs => hwithin s (List.mem_cons_of_mem _ hs)
    exact Mirrors.andThen (mirrors_modifyScopes fun _ => done.scopes)
      ((mirrors_indexAction onRegions owner haction).andThen hrest)

end

theorem mirrors_indexRegion (depth : Nat) :
    M.OnRegions (Table.indexRegion depth) (Table.indexRegion depth) := by
  induction depth with
  | zero => exact fun _ _ _ _ => rfl
  | succ depth ih =>
    intro region hregion
    cases region with
    | code owner node scope =>
      show M.MirrorRuns _ (Table.indexSteps _ owner scope scope (node.edit e).plan)
      rw [Node.plan_edit]
      refine mirrors_indexSteps ih owner scope scope (fun step hstep => ?_) ?_
      · exact (M.readTexts hregion).subset fun _ hp => Node.mem_readTexts_plan hstep hp
      · exact fun step hstep => (node.of_plan step hstep).within (fun _ _ hp hc => hp.child hc) hregion
    | members c body =>
      refine mirrors_forM (Node.memberNodes_edit e body) fun member hmember => ?_
      exact mirrors_indexMember ih c (Node.mem_preorder_of_mem_memberNodes hmember hregion)

/-! ## the unit -/

theorem mirrors_recordImport (hkind : node.kind = "import_declaration") (hnode : u.Has node) :
    M.MirrorRuns (Table.recordImport node) (Table.recordImport (node.edit e)) := by
  have htarget : SameTexts e u u' (Table.importTarget? node).toList := by
    refine (M.declaredTexts hnode).subset fun p hp => List.mem_append_right _ ?_
    rw [hkind]
    exact hp
  have hstatic : (node.edit e).children.any (·.kind == "static") =
      node.children.any (·.kind == "static") := by
    have hlist : node ∉ e.lists := fun hlist => by
      have hkind' := M.lists node hlist
      rw [hkind] at hkind'
      exact absurd hkind' (by decide)
    rw [Node.children_edit, if_neg hlist]
    exact Node.any_map_edit e (fun c => by rw [Node.kind_edit]) _
  unfold Table.recordImport
  rw [Node.importTarget?_edit, hstatic]
  cases htargets : Table.importTarget? node with
  | none => exact mirrors_pure trivial
  | some target =>
    rw [htargets] at htarget
    refine (mirrors_buildText (htarget target List.mem_cons_self)).bindEq fun qualified => ?_
    dsimp only
    split
    · exact mirrors_modify fun _ ht => ⟨rfl, ht⟩
    · exact mirrors_modify fun _ ht => ⟨rfl, ht⟩

theorem mirrors_recordPackage (hkind : node.kind = "package_declaration") (hnode : u.Has node) :
    M.MirrorRuns (Table.recordPackage node) (Table.recordPackage (node.edit e)) := by
  have hnames : (node.edit e).namedChildren.filter Table.isName =
      (node.namedChildren.filter Table.isName).map (Node.edit e) := by
    rw [Node.namedChildren_edit]
    exact Node.filter_map_edit e (fun c => by rw [Table.isName, Node.kind_edit, Table.isName]) _
  refine mirrors_forM hnames fun part hpart => ?_
  have htext : SameTexts e u u' [part] := by
    refine (M.declaredTexts hnode).subset fun p hp => List.mem_append_right _ ?_
    cases List.mem_singleton.mp hp
    rw [hkind]
    exact hpart
  refine (mirrors_buildText (htext part List.mem_cons_self)).bindEq fun package => ?_
  exact mirrors_modify fun _ ht => ⟨rfl, ht⟩

theorem mirrors_indexTopLevel (depth : Nat) (hnode : u.Has node) :
    M.MirrorRuns (Table.indexTopLevel depth node) (Table.indexTopLevel depth (node.edit e)) := by
  unfold Table.indexTopLevel
  rw [Node.kind_edit]
  split
  · exact mirrors_recordPackage (eq_of_beq ‹_›) hnode
  · split
    · exact mirrors_recordImport (eq_of_beq ‹_›) hnode
    · cases hkind : ClassKind.ofKind? node.kind with
      | none => exact mirrors_pure trivial
      | some kind =>
        refine mirrors_named (mirrors_indexRegion depth) _ _ _ hkind hnode fun c name => ?_
        exact mirrors_modify fun _ ht => ⟨rfl, ht⟩

theorem mirrors_topLevels (depth : Nat) :
    M.MirrorRuns (u.root.namedChildren.forM (Table.indexTopLevel depth))
      (u'.root.namedChildren.forM (Table.indexTopLevel depth)) := by
  rw [M.root]
  refine mirrors_forM (Node.namedChildren_edit e u.root) fun node hnode => ?_
  have hroot : u.Has u.root := Node.mem_preorder_self u.root
  exact mirrors_indexTopLevel depth (hroot.child (Node.mem_of_mem_namedChildren hnode))

theorem built_start : M.Built { source := u } := by
  refine ⟨rfl, fun c body hbody => ?_⟩
  rw [Table.decl, Array.getD_eq_getD_getElem?, Array.getElem?_empty] at hbody
  cases hbody

section
variable (M)
include M

theorem height : u'.root.height = u.root.height := by
  rw [M.root, Node.height_edit]

theorem indexed {t : Table} (h : Table.indexed u = .ok t) :
    Table.indexed u' = .ok (t.edit e u') ∧ t.source = u := by
  obtain ⟨⟨_, t₁⟩, hrun, hdone⟩ := Run.of_except_bind h
  cases hdone
  obtain ⟨_, hrun', _, hbuilt⟩ := (mirrors_topLevels (M := M) u.root.height).of_ok built_start hrun
  have hstart : ({ source := u } : Table).edit e u' = { source := u' } := by
    rw [Table.edit, Array.map_empty]
    rfl
  rw [hstart, ← M.height] at hrun'
  refine ⟨?_, hbuilt.1⟩
  rw [Table.indexed, StateT.run, hrun']
  rfl

end

/-! ## supertypes -/

/-- a change of tables over `u` that can be made before or after the edit -/
def Commutes (_ : Rereads e u u') (f : Table → Table) : Prop :=
  ∀ t, t.source = u → f (t.edit e u') = (f t).edit e u' ∧ (f t).source = u

theorem commutes_foldl {α : Type} {f : Table → α → Table} (h : ∀ x, M.Commutes fun t => f t x)
    (xs : List α) : M.Commutes fun t => xs.foldl f t := by
  induction xs with
  | nil => exact fun t ht => ⟨rfl, ht⟩
  | cons x xs ih =>
    intro t ht
    obtain ⟨hx, hsource⟩ : f (t.edit e u') x = (f t x).edit e u' ∧ _ := h x t ht
    show xs.foldl f (f (t.edit e u') x) = _ ∧ _
    rw [hx]
    exact ih (f t x) hsource

theorem commutes_linkSupertype (c : ClassId) (harmless : List String) (unseen : ClassDecl → ClassDecl)
    (hunseen : ∀ d, unseen (d.edit e) = (unseen d).edit e) (written : String) :
    M.Commutes fun t => Table.linkSupertype c harmless unseen t written := by
  intro t ht
  have hrestates : t.Restates e (t.edit e u') :=
    t.restates_edit e u' (by rw [M.height, ht])
  have hfound : ((t.edit e u').resolveTypeText (t.edit e u').scopes
      ((((t.edit e u').scopes.frame ((t.edit e u').decl c).scope).ancestors.head?).getD
        Scopes.rootId) written).bind (·.cls) =
      (t.resolveTypeText t.scopes
        (((t.scopes.frame (t.decl c).scope).ancestors.head?).getD Scopes.rootId) written).bind
          (·.cls) := by
    rw [hrestates.resolveTypeText, Table.decl_edit]
    rfl
  dsimp only [Table.linkSupertype]
  rw [hfound]
  cases (t.resolveTypeText t.scopes _ written).bind (·.cls) with
  | some found => exact ⟨edit_classes_modify t c fun _ => rfl, ht⟩
  | none =>
    dsimp only
    split
    · exact ⟨rfl, ht⟩
    · exact ⟨edit_classes_modify t c hunseen, ht⟩

theorem commutes_linkSupertypes (c : ClassId) : M.Commutes fun t => t.linkSupertypes c := by
  intro t ht
  obtain ⟨hclasses, hsource⟩ := commutes_foldl (M := M) (commutes_linkSupertype c
    Table.rootSuperclasses (fun d => { d with opaqueMethods := true, opaqueFields := true })
    fun _ => rfl) ((t.decl c).superclass.filter (· != "")).toList t ht
  have hsuperclass : ((t.edit e u').decl c).superclass = (t.decl c).superclass := by
    rw [Table.decl_edit]
    rfl
  dsimp only [Table.linkSupertypes] at hclasses ⊢
  rw [hsuperclass, hclasses, Table.decl_edit]
  exact commutes_foldl (M := M) (commutes_linkSupertype c Table.markerInterfaces
    (fun d => { d with opaqueMethods := true }) fun _ => rfl) _ _ hsource

theorem ofSource (M : Rereads e u u') {t : Table} (h : Table.ofSource u = .ok t) :
    Table.ofSource u' = .ok (t.edit e u') := by
  obtain ⟨t₁, hindexed, hdone⟩ := Run.of_except_bind h
  cases hdone
  obtain ⟨hindexed', hsource⟩ := M.indexed hindexed
  have hids : (t₁.edit e u').classIds = t₁.classIds := by
    rw [Table.classIds, Table.edit, Array.size_map, Table.classIds]
  have hlinks := (commutes_foldl (M := M) commutes_linkSupertypes t₁.classIds t₁ hsource).1
  unfold Table.ofSource
  rw [hindexed']
  show Except.ok ((t₁.edit e u').classIds.foldl Table.linkSupertypes (t₁.edit e u')) = _
  rw [hids]
  exact congrArg Except.ok hlinks

end Rereads

end StaticPromotion
