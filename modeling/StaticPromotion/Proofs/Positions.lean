import Mathlib.Data.List.Nodup
import Mathlib.Data.List.Perm.Subperm
import StaticPromotion.Proofs.Parts

/-!
# Where the parts of a plan stand

Two nodes of a tree may look the same, so where a node stands is said by a way: the numbers of the children on the way down.
A plan goes on to parts that stand apart, none within another, unless a `try` has a clause for its body or its resources,
which its plan names a second time among the clauses.

* `Node.at? n way`        the node at the end of a way;
* `Apart`                 neither way continues the other;
* `Node.Located n parts`  the parts stand below `n`, and apart from each other;
* `Node.holdsClass`       a class is declared in the node or below it;
* `Node.goesOnce`         no part of a `try` that holds a class is named twice;
* `Node.located_plan`, `Node.located_members`    so the parts with classes that a plan goes on to are located, and the members
                          of a body;
-/

namespace StaticPromotion

variable {part : Node}

/-! ## ways -/

abbrev Way := List Nat

def Apart (p q : Way) : Prop :=
  ¬ p <+: q ∧ ¬ q <+: p

theorem Apart.symm {p q : Way} (h : Apart p q) : Apart q p :=
  ⟨h.2, h.1⟩

/-- no way continues both -/
theorem Apart.not_both {p q r : Way} (h : Apart p q) (hp : p <+: r) : ¬ q <+: r := by
  intro hq
  rcases List.prefix_or_prefix_of_prefix hp hq with hpq | hqp
  · exact h.1 hpq
  · exact h.2 hqp

theorem Apart.extend {p q p' q' : Way} (h : Apart p q) (hp : p <+: p') (hq : q <+: q') : Apart p' q' := by
  refine ⟨fun hle => ?_, fun hle => ?_⟩
  · exact h.not_both (hp.trans hle) hq
  · exact h.not_both hp (hq.trans hle)

theorem Apart.below {p q : Way} (h : Apart p q) (r : Way) : Apart (r ++ p) (r ++ q) :=
  ⟨fun hle => h.1 ((List.prefix_append_right_inj r).mp hle),
    fun hle => h.2 ((List.prefix_append_right_inj r).mp hle)⟩

theorem apart_of_ne {i j : Nat} (h : i ≠ j) : Apart [i] [j] := by
  refine ⟨fun hle => h ?_, fun hle => h ?_⟩
  · exact (List.cons_prefix_cons.mp hle).1
  · exact (List.cons_prefix_cons.mp hle).1.symm

theorem not_concat_le (p : Way) (i : Nat) : ¬ p ++ [i] <+: p := by
  intro h
  have hlength := h.length_le
  rw [List.length_append, List.length_singleton] at hlength
  omega

namespace Node

variable {n c : Node} {p : Way} {parts : List Node}

def at? : Node → Way → Option Node
  | n, [] => some n
  | n, i :: rest => (n.children[i]?).bind fun c => c.at? rest

theorem at?_append (n : Node) (p q : Way) : n.at? (p ++ q) = (n.at? p).bind fun c => c.at? q := by
  induction p generalizing n with
  | nil => rfl
  | cons i p ih =>
    rw [List.cons_append, at?, at?]
    cases n.children[i]? with
    | none => rfl
    | some c => exact ih c

theorem at?_of_append {d : Node} {q : Way} (hp : n.at? p = some c) (hq : c.at? q = some d) :
    n.at? (p ++ q) = some d := by
  rw [at?_append, hp]
  exact hq

theorem at?_child {d : Node} {i : Nat} (hp : n.at? p = some c)
    (hd : c.children[i]? = some d) : n.at? (p ++ [i]) = some d :=
  at?_of_append hp (by rw [at?, hd]; rfl)

theorem mem_preorder_of_at? (h : n.at? p = some c) : c ∈ n.preorder := by
  induction p generalizing n with
  | nil =>
    cases h
    exact mem_preorder_self _
  | cons i p ih =>
    rw [at?] at h
    obtain ⟨d, hd, hrest⟩ := Option.bind_eq_some_iff.mp h
    exact mem_preorder_trans (ih hrest)
      (mem_preorder_of_mem_children (List.mem_of_getElem? hd) (mem_preorder_self n))

/-! ## located parts -/

/-- `part` stands strictly below `n`, at the end of `way` -/
def Stands (n part : Node) (way : Way) : Prop :=
  n.at? way = some part ∧ way ≠ []

def Located (n : Node) (parts : List Node) : Prop :=
  ∃ ways : List Way, List.Forall₂ n.Stands parts ways ∧ ways.Pairwise Apart

/-- the same, and the only part may be `n` itself -/
def Spread (n : Node) (parts : List Node) : Prop :=
  ∃ ways : List Way, List.Forall₂ (fun part way => n.at? way = some part) parts ways ∧
    ways.Pairwise Apart

theorem located_nil (n : Node) : n.Located [] :=
  ⟨[], .nil, .nil⟩

theorem Located.spread (h : n.Located parts) : n.Spread parts := by
  obtain ⟨ways, hstands, hapart⟩ := h
  exact ⟨ways, hstands.imp fun _ _ hpart => hpart.1, hapart⟩

theorem spread_self (n : Node) : n.Spread [n] :=
  ⟨[[]], .cons rfl .nil, List.pairwise_singleton _ _⟩

theorem Located.perm {parts' : List Node} (h : n.Located parts)
    (hperm : parts'.Perm parts) : n.Located parts' := by
  obtain ⟨ways, hstands, hapart⟩ := h
  obtain ⟨ways', hstands', hways⟩ := List.perm_comp_forall₂ hperm hstands
  exact ⟨ways', hstands', (hways.pairwise_iff Apart.symm).mpr hapart⟩

/-- some of the children of a node, in order, have places among them -/
theorem exists_places (h : parts.Sublist n.children) :
    ∃ places : List Nat, List.Forall₂ (fun part i => n.children[i]? = some part) parts places ∧
      places.Pairwise (· < ·) := by
  obtain ⟨places, rfl, hincreasing⟩ := List.sublist_eq_map_getElem h
  refine ⟨places.map (·.val), ?_, List.pairwise_map.mpr hincreasing⟩
  rw [List.forall₂_map_left_iff, List.forall₂_map_right_iff, List.forall₂_same]
  exact fun i _ => List.getElem?_eq_getElem i.isLt

theorem located_of_sublist (h : parts.Sublist n.children) : n.Located parts := by
  obtain ⟨places, hplaces, hincreasing⟩ := exists_places h
  refine ⟨places.map ([·]), ?_, ?_⟩
  · rw [List.forall₂_map_right_iff]
    refine hplaces.imp fun part i hpart => ⟨?_, List.cons_ne_nil _ _⟩
    rw [at?, hpart]
    rfl
  · rw [List.pairwise_map]
    exact hincreasing.imp fun hlt => apart_of_ne (Nat.ne_of_lt hlt)

theorem located_of_subperm (h : parts.Subperm n.children) : n.Located parts := by
  obtain ⟨parts', hperm, hsublist⟩ := h
  exact (located_of_sublist hsublist).perm hperm.symm

theorem Located.mem_preorder (h : n.Located parts) (hpart : part ∈ parts) : part ∈ n.preorder := by
  obtain ⟨ways, hstands, hapart⟩ := h
  clear hapart
  induction hstands with
  | nil => cases hpart
  | cons hfirst _ ih =>
    rcases List.mem_cons.mp hpart with rfl | hpart
    · exact mem_preorder_of_at? hfirst.1
    · exact ih hpart

theorem Located.sublist {parts' : List Node} (h : n.Located parts)
    (hsublist : parts'.Sublist parts) : n.Located parts' := by
  have along : ∀ {parts parts' : List Node}, parts'.Sublist parts → ∀ {ways : List Way},
      List.Forall₂ n.Stands parts ways →
      ∃ ways' : List Way, ways'.Sublist ways ∧ List.Forall₂ n.Stands parts' ways' := by
    intro parts parts' hsublist
    induction hsublist with
    | slnil =>
      intro ways hstands
      exact ⟨[], List.nil_sublist _, .nil⟩
    | cons part _ ih =>
      intro ways hstands
      cases hstands with
      | @cons _ way _ ways _ hstands =>
        obtain ⟨ways', hways, hstands'⟩ := ih hstands
        exact ⟨ways', hways.cons way, hstands'⟩
    | cons_cons part _ ih =>
      intro ways hstands
      cases hstands with
      | @cons _ way _ ways hpart hstands =>
        obtain ⟨ways', hways, hstands'⟩ := ih hstands
        exact ⟨way :: ways', hways.cons_cons way, .cons hpart hstands'⟩
  obtain ⟨ways, hstands, hapart⟩ := h
  obtain ⟨ways', hways, hstands'⟩ := along hsublist hstands
  exact ⟨ways', hstands', hapart.sublist hways⟩

theorem Located.filter (h : n.Located parts) (p : Node → Bool) : n.Located (parts.filter p) :=
  h.sublist List.filter_sublist

/-- parts of located parts, in front of others -/
theorem Located.refine {ds others : List Node} {f : Node → List Node} (h : n.Located (ds ++ others))
    (hf : ∀ d ∈ ds, d.Spread (f d)) : n.Located (ds.flatMap f ++ others) := by
  -- the new ways continue the old ones, so they stay apart from all that the old ones were apart from
  have along : ∀ (ds : List Node) (ways : List Way), List.Forall₂ n.Stands (ds ++ others) ways →
      ways.Pairwise Apart → (∀ d ∈ ds, d.Spread (f d)) →
      ∃ ways', List.Forall₂ n.Stands (ds.flatMap f ++ others) ways' ∧ ways'.Pairwise Apart ∧
        ∀ way' ∈ ways', ∃ way ∈ ways, way <+: way' := by
    intro ds
    induction ds with
    | nil => exact fun ways hstands hapart _ =>
        ⟨ways, hstands, hapart, fun way hway => ⟨way, hway, List.prefix_rfl⟩⟩
    | cons d ds ih =>
      intro ways hstands hapart hlocated
      cases hstands with
      | @cons _ way _ ways hd hstands =>
      obtain ⟨hfirst, hrest⟩ := List.pairwise_cons.mp hapart
      obtain ⟨inner, hinner, hinnerApart⟩ := hlocated d List.mem_cons_self
      obtain ⟨ways', hstands', hapart', hbelow⟩ := ih ways hstands hrest fun d' hd' =>
        hlocated d' (List.mem_cons_of_mem _ hd')
      refine ⟨inner.map (way ++ ·) ++ ways', ?_, ?_, ?_⟩
      · rw [List.flatMap_cons, List.append_assoc]
        refine List.rel_append ?_ hstands'
        rw [List.forall₂_map_right_iff]
        refine hinner.imp fun part q hpart => ⟨at?_of_append hd.1 hpart, ?_⟩
        exact List.append_ne_nil_of_left_ne_nil hd.2 q
      · refine List.pairwise_append.mpr ⟨?_, hapart', ?_⟩
        · rw [List.pairwise_map]
          exact hinnerApart.imp fun hapart => hapart.below way
        · intro p hp q hq
          obtain ⟨r, _, rfl⟩ := List.mem_map.mp hp
          obtain ⟨w, hw, hwq⟩ := hbelow q hq
          exact (hfirst w hw).extend (List.prefix_append way r) hwq
      · intro p hp
        rcases List.mem_append.mp hp with hp | hp
        · obtain ⟨r, _, rfl⟩ := List.mem_map.mp hp
          exact ⟨way, List.mem_cons_self, List.prefix_append way r⟩
        · obtain ⟨w, hw, hwp⟩ := hbelow p hp
          exact ⟨w, List.mem_cons_of_mem _ hw, hwp⟩
  obtain ⟨ways, hstands, hapart⟩ := h
  obtain ⟨ways', hstands', hapart', _⟩ := along ds ways hstands hapart hf
  exact ⟨ways', hstands', hapart'⟩

theorem Located.flatMap {ds : List Node} {f : Node → List Node} (h : n.Located ds)
    (hf : ∀ d ∈ ds, d.Spread (f d)) : n.Located (ds.flatMap f) := by
  have hall : n.Located (ds ++ []) := by rwa [List.append_nil]
  have hrefined := hall.refine hf
  rwa [List.append_nil] at hrefined

/-! ## children in fields -/

theorem field_of_child? {f : String} (h : n.child? f = some c) : c.field = some f :=
  beq_iff_eq.mp (List.find?_some h :)

theorem nodup_fields (n : Node) {fields : List String} (h : fields.Nodup) :
    (fields.flatMap fun f => (n.child? f).toList).Nodup := by
  refine List.nodup_flatMap.mpr ⟨fun f _ => ?_, h.imp fun {f g} hne c hf hg => hne ?_⟩
  · cases n.child? f with
    | none => exact List.nodup_nil
    | some c => exact List.nodup_singleton c
  · have hfield := field_of_child? (Option.mem_toList.mp hf)
    rw [field_of_child? (Option.mem_toList.mp hg)] at hfield
    exact (Option.some.inj hfield).symm

theorem located_fields (n : Node) {fields : List String} (h : fields.Nodup) :
    n.Located (fields.flatMap fun f => (n.child? f).toList) := by
  refine located_of_subperm ((nodup_fields n h).subperm fun c hc => ?_)
  obtain ⟨f, _, hc⟩ := List.mem_flatMap.mp hc
  exact mem_of_child? (Option.mem_toList.mp hc)

theorem located_child (n : Node) (f : String) : n.Located (n.child? f).toList := by
  have hfields := n.located_fields (List.nodup_singleton f)
  rwa [List.flatMap_cons, List.flatMap_nil, List.append_nil] at hfields

theorem located_pair (n : Node) {f g : String} (h : f ≠ g) :
    n.Located ((n.child? f).toList ++ (n.child? g).toList) := by
  have hne : [f, g].Nodup := by simpa using h
  have hfields := n.located_fields hne
  rwa [List.flatMap_cons, List.flatMap_cons, List.flatMap_nil, List.append_nil] at hfields

theorem located_filter (n : Node) (p : Node → Bool) : n.Located (n.children.filter p) :=
  located_of_sublist List.filter_sublist

theorem located_named (n : Node) (p : Node → Bool) : n.Located (n.namedChildren.filter p) :=
  located_of_sublist (List.filter_sublist.trans List.filter_sublist)

theorem located_namedBut (n : Node) (f : String) : n.Located (n.namedBut f ++ (n.child? f).toList) := by
  have hall : ∀ cs : List Node, (cs.eraseP (inField f) ++ (cs.find? (inField f)).toList).Perm cs := by
    intro cs
    induction cs with
    | nil => exact .nil
    | cons c cs ih =>
      by_cases hc : inField f c = true
      · rw [List.eraseP_cons_of_pos hc, List.find?_cons_of_pos hc]
        exact List.perm_append_comm
      · rw [List.eraseP_cons_of_neg hc, List.find?_cons_of_neg hc]
        exact ih.cons c
  refine located_of_subperm (List.Subperm.trans ?_ (hall n.children).subperm)
  exact (List.filter_sublist.subperm).append (List.Subperm.refl _)

/-! ## the parts that a plan goes on to -/

end Node

def Step.target? : Step → Option Node
  | .visit part _ => some part
  | .anonymousClass _ body => some body
  | .enter _ _ | .declare _ _ | .caseConstant _ | .localClass _ => none

namespace Node

variable {n : Node}

def targets (steps : List Step) : List Node :=
  steps.filterMap (·.target?)

theorem targets_append (as bs : List Step) : targets (as ++ bs) = targets as ++ targets bs :=
  List.filterMap_append

@[simp] theorem targets_enter (label : String) (names : List Node) (rest : List Step) :
    targets (.enter label names :: rest) = targets rest :=
  rfl

@[simp] theorem targets_visitAll (place : Place) (parts : List Node) :
    targets (visitAll place parts) = parts := by
  rw [targets, visitAll, List.filterMap_map]
  exact List.filterMap_some

@[simp] theorem targets_visitStatements (parts : List Node) : targets (visitStatements parts) = parts := by
  rw [targets, visitStatements, List.filterMap_map]
  exact List.filterMap_some

@[simp] theorem targets_visitField (n : Node) (f : String) (place : Place) :
    targets (n.visitField f place) = (n.child? f).toList :=
  targets_visitAll place _

theorem targets_flatMap {α : Type} (xs : List α) (f : α → List Step) :
    targets (xs.flatMap f) = xs.flatMap fun x => targets (f x) :=
  List.filterMap_flatMap

theorem targets_declares (names : List Node) (place : Place) :
    targets (names.map (.declare · place)) = [] := by
  rw [targets, List.filterMap_map]
  exact List.filterMap_eq_nil_iff.mpr fun _ _ => rfl

theorem targets_declaratorSteps (n : Node) (place : Place) :
    targets (n.declaratorSteps place) =
      (n.childrenAt "declarator").flatMap fun d => (d.child? "value").toList := by
  rw [declaratorSteps, targets_flatMap]
  congr 1
  funext d
  rw [targets_append, targets_declares, targets_visitField, List.nil_append]

theorem targets_caseLabelSteps (n : Node) : targets n.caseLabelSteps =
    n.namedChildren.filter fun c => !isPattern c.kind && !c.isIdentifier := by
  have hnames : targets (n.namedChildren.flatMap fun c =>
      if isPattern c.kind then c.patternNames.map (.declare · .here)
      else if c.isIdentifier then [.caseConstant c] else []) = [] := by
    rw [targets_flatMap]
    refine List.flatMap_eq_nil_iff.mpr fun c _ => ?_
    split
    · exact targets_declares _ _
    · split
      · rfl
      · rfl
  rw [caseLabelSteps, targets_append, hnames, targets_visitAll, List.nil_append]

theorem targets_creationSteps (n : Node) (parts : List Node) :
    targets (n.creationSteps parts) = parts.filter fun c => !isTypeKind c.kind := by
  have htarget : ∀ c : Node, (if c.kind == "class_body" then Step.anonymousClass n c
      else .visit c .here).target? = some c := by
    intro c
    split
    · rfl
    · rfl
  rw [targets, creationSteps, List.filterMap_map]
  refine Eq.trans (List.filterMap_congr fun c _ => htarget c) List.filterMap_some

theorem located_resourceSteps (n : Node) : n.Located (targets n.resourceSteps) := by
  unfold resourceSteps
  split
  · show n.Located (targets (n.visitField "value" _))
    rw [targets_visitField]
    exact n.located_child "value"
  · rw [targets_visitAll]
    exact located_of_sublist List.filter_sublist

/-! ## plans -/

def declaresClass (n : Node) : Bool :=
  match n.construct with
  | .classDeclaration _ => true
  | .creation => n.namedChildren.any (·.kind == "class_body")
  | _ => false

def holdsClass (n : Node) : Bool :=
  n.preorder.any declaresClass

theorem holdsClass_of_mem (h : part ∈ n.preorder) (hpart : part.holdsClass = true) :
    n.holdsClass = true := by
  obtain ⟨d, hd, hdeclares⟩ := List.any_eq_true.mp hpart
  exact List.any_eq_true.mpr ⟨d, mem_preorder_trans hd h, hdeclares⟩

def isClause (c : Node) : Bool :=
  c.named && (c.kind == "catch_clause" || c.kind == "finally_clause")

/-- where the resources or the body of a `try` are among its clauses too, no class is declared in them -/
def goesOnce (n : Node) : Bool :=
  n.construct != .tryResources ||
    ["resources", "body"].all fun f => (n.child? f).all fun c => !(c.isClause && c.holdsClass)

theorem located_try (h : ∀ f ∈ ["resources", "body"], ∀ c, n.child? f = some c →
      c.holdsClass = true → c.isClause = false) :
    n.Located ((n.child? "resources").toList.filter holdsClass ++
      ((n.child? "body").toList ++ n.namedChildren.filter fun c =>
        c.kind == "catch_clause" || c.kind == "finally_clause").filter holdsClass) := by
  let fields := ["resources", "body"].flatMap fun f => (n.child? f).toList
  have hfields : fields = (n.child? "resources").toList ++ (n.child? "body").toList := by
    show _ ++ (_ ++ []) = _
    rw [List.append_nil]
  have hclauses : (n.namedChildren.filter fun c =>
      c.kind == "catch_clause" || c.kind == "finally_clause") = n.children.filter isClause := by
    rw [namedChildren, List.filter_filter]
    exact List.filter_congr fun c _ => Bool.and_comm _ _
  have hothers : (fields.filter holdsClass).Subperm (n.children.filter fun c => !c.isClause) := by
    refine ((n.nodup_fields (by decide)).filter _).subperm fun c hc => ?_
    obtain ⟨hfield, hholds⟩ := List.mem_filter.mp hc
    obtain ⟨f, hf, hfield⟩ := List.mem_flatMap.mp hfield
    have hchild := Option.mem_toList.mp hfield
    refine List.mem_filter.mpr ⟨mem_of_child? hchild, ?_⟩
    rw [h f hf c hchild hholds]
    rfl
  rw [List.filter_append, ← List.append_assoc, ← List.filter_append, ← hfields, hclauses]
  have hsome : ((n.children.filter isClause).filter holdsClass).Subperm
      (n.children.filter isClause) := List.filter_sublist.subperm
  refine located_of_subperm ((hothers.append hsome).trans ?_)
  exact (List.perm_append_comm.trans (List.filter_append_perm isClause n.children)).subperm

/-- the parts of the resources take the place of the list -/
theorem located_tryPlan (hconstruct : n.construct = .tryResources) (h : n.goesOnce = true) :
    n.Located ((targets (.enter "try" [] ::
      ((((n.child? "resources").map namedChildren).getD []).flatMap resourceSteps ++
        n.visitField "body" .inner ++ visitAll .here (n.namedChildren.filter fun c =>
          c.kind == "catch_clause" || c.kind == "finally_clause")))).filter holdsClass) := by
  let parts (list : Node) := list.namedChildren.flatMap fun r => targets r.resourceSteps
  have hparts : ∀ list : Node, list.Located (parts list) := fun list =>
    (located_of_sublist List.filter_sublist).flatMap fun r _ => r.located_resourceSteps.spread
  have hresources : ((((n.child? "resources").map namedChildren).getD []).flatMap fun r =>
      targets r.resourceSteps) = (n.child? "resources").toList.flatMap parts := by
    cases n.child? "resources" with
    | none => rfl
    | some list => exact (List.append_nil _).symm
  -- a list of resources without classes has no parts with classes
  have hfiltered : ((n.child? "resources").toList.flatMap parts).filter holdsClass =
      ((n.child? "resources").toList.filter holdsClass).flatMap fun list =>
        (parts list).filter holdsClass := by
    cases n.child? "resources" with
    | none => rfl
    | some list =>
      rw [Option.toList_some, List.flatMap_singleton]
      by_cases hholds : list.holdsClass = true
      · rw [List.filter_cons_of_pos hholds, List.filter_nil, List.flatMap_singleton]
      · rw [List.filter_cons_of_neg hholds, List.filter_nil, List.flatMap_nil]
        refine List.filter_eq_nil_iff.mpr fun part hpart hpartHolds => hholds ?_
        exact holdsClass_of_mem ((hparts list).mem_preorder hpart) hpartHolds
  rw [targets_enter, targets_append, targets_append, targets_flatMap, targets_visitField,
    targets_visitAll, hresources, List.append_assoc, List.filter_append, hfiltered]
  refine (located_try fun f hf c hc hholds => ?_).refine fun list _ => ((hparts list).filter _).spread
  rw [goesOnce, hconstruct] at h
  have hfield := List.all_eq_true.mp h f hf
  rw [hc] at hfield
  simpa [hholds] using hfield

/-- a plan goes on to parts that stand apart, as far as classes are declared in them -/
theorem located_plan (h : n.goesOnce = true) : n.Located ((targets n.plan).filter holdsClass) := by
  have hnamed : n.Located n.namedChildren := located_of_sublist List.filter_sublist
  unfold plan
  split
  · rw [targets_enter, targets_visitStatements]
    exact hnamed.filter _
  · rw [targets_declaratorSteps]
    refine Located.filter ?_ _
    exact (n.located_filter _).flatMap fun d _ => (d.located_child "value").spread
  · exact n.located_nil
  · rw [targets_enter, targets_append, targets_visitStatements, targets_visitField]
    exact (n.located_namedBut "body").filter _
  · have hne : ["condition", "consequence", "alternative"].Nodup := by decide
    have hfields := (n.located_fields hne).filter holdsClass
    rwa [List.flatMap_cons, List.flatMap_cons, List.flatMap_cons, List.flatMap_nil, List.append_nil,
      ← List.append_assoc, ← targets_visitField, ← targets_visitField, ← targets_visitField,
      ← targets_append, ← targets_append] at hfields
  · rw [targets_append, targets_visitField, targets_visitField]
    exact (n.located_pair (by decide)).filter _
  · split
    · rw [targets_append, targets_visitField, targets_visitField]
      exact (n.located_pair (by decide)).filter _
    · rw [targets_append, targets_visitField, targets_visitField]
      exact (n.located_pair (by decide)).filter _
    · rw [targets_visitAll]
      exact hnamed.filter _
  · rw [targets_append, targets_enter, targets_visitField, targets_visitField]
    exact (n.located_pair (by decide)).filter _
  · rw [targets_enter, targets_visitField]
    exact (n.located_child "body").filter _
  · rename_i hconstruct
    exact located_tryPlan hconstruct h
  · rw [targets_enter, targets_visitField]
    exact (n.located_child "body").filter _
  · rw [targets_enter, targets_visitStatements]
    exact hnamed.filter _
  · rw [targets_enter, targets_visitAll]
    exact hnamed.filter _
  · rw [targets_caseLabelSteps]
    exact (n.located_named _).filter _
  · rw [targets_visitField]
    exact (n.located_child "left").filter _
  · rw [targets_visitAll]
    exact (n.located_named _).filter _
  · rw [targets_creationSteps]
    exact (n.located_named _).filter _
  · rw [targets_visitAll]
    exact hnamed.filter _

/-! ## parts with classes -/

end Node

/-- the node at which a step goes on to what may declare classes -/
def Step.seat? : Step → Option Node
  | .visit part _ => if part.holdsClass then some part else none
  | .anonymousClass _ body => some body
  | .enter _ _ | .declare _ _ | .caseConstant _ | .localClass _ => none

namespace Node

def seats (steps : List Step) : List Node :=
  steps.filterMap (·.seat?)

theorem seats_visit_of_holds (h : part.holdsClass = true) (place : Place) (rest : List Step) :
    seats (.visit part place :: rest) = part :: seats rest :=
  List.filterMap_cons_some (by rw [Step.seat?, if_pos h])

theorem seats_visit_of_not_holds (h : part.holdsClass = false) (place : Place) (rest : List Step) :
    seats (.visit part place :: rest) = seats rest :=
  List.filterMap_cons_none (by rw [Step.seat?, h, if_neg Bool.false_ne_true])

theorem seats_sublist (steps : List Step) : (seats steps).Sublist (targets steps) := by
  induction steps with
  | nil => exact .slnil
  | cons step steps ih =>
    cases step with
    | visit part place =>
      cases hholds : part.holdsClass with
      | true =>
        rw [seats_visit_of_holds hholds]
        exact ih.cons_cons part
      | false =>
        rw [seats_visit_of_not_holds hholds]
        exact ih.cons part
    | anonymousClass creation body => exact ih.cons_cons body
    | enter | declare | caseConstant | localClass => exact ih

theorem seats_eq_filter {steps : List Step} (h : ∀ creation body, .anonymousClass creation body ∉ steps) :
    seats steps = (targets steps).filter holdsClass := by
  induction steps with
  | nil => rfl
  | cons step steps ih =>
    have hrest := ih fun creation body hmem => h creation body (List.mem_cons_of_mem _ hmem)
    cases step with
    | visit part place =>
      show _ = (part :: targets steps).filter holdsClass
      cases hholds : part.holdsClass with
      | true => rw [seats_visit_of_holds hholds, List.filter_cons_of_pos hholds, hrest]
      | false =>
        rw [seats_visit_of_not_holds hholds, List.filter_cons_of_neg (by rw [hholds]; decide), hrest]
    | anonymousClass creation body => exact absurd List.mem_cons_self (h creation body)
    | enter | declare | caseConstant | localClass => exact hrest

/-- the parts with classes stand apart, and the bodies in a creation are children of it -/
theorem located_seats {n : Node} (h : n.goesOnce = true) :
    ∃ ways : List Way, List.Forall₂ (fun part way => n.Stands part way ∧
        (n.construct = .creation → ∃ i, way = [i] ∧ n.children[i]? = some part))
      (seats n.plan) ways ∧ ways.Pairwise Apart := by
  by_cases hcreation : n.construct = .creation
  · have hplan : n.plan = n.creationSteps n.namedChildren := by rw [plan, hcreation]
    have hsublist : (seats n.plan).Sublist n.children := by
      refine (seats_sublist _).trans ?_
      rw [hplan, targets_creationSteps]
      exact List.filter_sublist.trans List.filter_sublist
    obtain ⟨places, hplaces, hincreasing⟩ := exists_places hsublist
    refine ⟨places.map ([·]), ?_, ?_⟩
    · rw [List.forall₂_map_right_iff]
      refine hplaces.imp fun part i hpart => ⟨⟨?_, List.cons_ne_nil _ _⟩, fun _ => ⟨i, rfl, hpart⟩⟩
      rw [at?, hpart]
      rfl
    · rw [List.pairwise_map]
      exact hincreasing.imp fun hlt => apart_of_ne (Nat.ne_of_lt hlt)
  · have hseats : seats n.plan = (targets n.plan).filter holdsClass :=
      seats_eq_filter fun creation body hstep => hcreation (n.of_plan _ hstep).2.1
    obtain ⟨ways, hstands, hapart⟩ := located_plan h
    refine ⟨ways, ?_, hapart⟩
    rw [hseats]
    exact hstands.imp fun part way hpart => ⟨hpart, fun hno => absurd hno hcreation⟩

theorem located_members (body : Node) : body.Located (Table.memberNodes body) := by
  refine (located_of_sublist List.filter_sublist).flatMap fun c _ => ?_
  split
  · exact (located_of_sublist List.filter_sublist).spread
  · exact c.spread_self

end Node

end StaticPromotion
