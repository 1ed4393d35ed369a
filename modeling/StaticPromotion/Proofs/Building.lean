import StaticPromotion.Proofs.Growth
import StaticPromotion.Proofs.Parts

/-!
# Steps that build a table

The first pass over a unit only ever adds to its table. This module says what a step of it may do, and what the table then
satisfies; the pass itself is in the next one.

* `Builds t x Q`      the step `x`, from the table `t`, ends with a value and a table as `Q` says, if it ends at all;
* `Table.Grows`       classes, levels and declared nodes are added, and none is lost or moved;
* `Table.Sound`       each class has its own level, which lies within those of the classes around it, and each class and method
                      comes from a node of the tree;
* `Table.Covered c`   the members of `c` that declare classes were all entered;
* `Table.Advances`    a step from one sound table to another that leaves no new class uncovered;
* `Table.Fills`       such a step that enters no class. `Sound.keep` finds them.
-/

namespace StaticPromotion

/-! ## what a step ends with -/

def Builds {α : Type} (t : Table) (x : Build α) (Q : α → Table → Prop) : Prop :=
  ∀ a t', x t = .ok (a, t') → Q a t'

section
variable {α β : Type} {t : Table} {Q : α → Table → Prop} {R : β → Table → Prop} {x : Build α} {γ : Type}

theorem builds_pure {a : α} (h : Q a t) : Builds t (pure a) Q := by
  intro a' t' hx
  cases hx
  exact h

theorem Builds.bind {f : α → Build β} (h : Builds t x fun a t₁ => Builds t₁ (f a) R) :
    Builds t (x >>= f) R := by
  intro b t' hx
  obtain ⟨⟨a, t₁⟩, hfirst, hnext⟩ := Run.of_except_bind hx
  exact h a t₁ hfirst b t' hnext

theorem Builds.mono {Q' : α → Table → Prop} (h : Builds t x Q) (hQ : ∀ a t', Q a t' → Q' a t') :
    Builds t x Q' :=
  fun a t' hx => hQ a t' (h a t' hx)

theorem builds_get {Q : Table → Table → Prop} (h : Q t t) : Builds t get Q := by
  intro a t' hx
  cases hx
  exact h

theorem builds_modify {Q : PUnit → Table → Prop} {change : Table → Table} (h : Q () (change t)) :
    Builds t (modify change) Q := by
  intro a t' hx
  cases hx
  exact h

theorem builds_lift {x : Except Fault α} (h : ∀ a, x = .ok a → Q a t) : Builds t (liftM x) Q := by
  intro a t' hx
  obtain ⟨a₁, ha, hdone⟩ := Run.of_except_bind hx
  cases hdone
  exact h a ha

theorem builds_forM {xs : List γ} {f : γ → Build Unit} {I : List γ → Table → Prop} (hstart : I [] t)
    (hstep : ∀ done x t₁, x ∈ xs → I done t₁ → Builds t₁ (f x) fun _ t₂ => I (done ++ [x]) t₂) :
    Builds t (xs.forM f) fun _ t' => I xs t' := by
  have along : ∀ (todo done : List γ) (t₁ : Table), done ++ todo = xs → I done t₁ →
      Builds t₁ (todo.forM f) fun _ t' => I xs t' := by
    intro todo
    induction todo with
    | nil =>
      intro done t₁ hxs hI
      rw [List.append_nil] at hxs
      exact builds_pure (hxs ▸ hI)
    | cons x todo ih =>
      intro done t₁ hxs hI
      have hmem : x ∈ xs := hxs ▸ List.mem_append_right _ List.mem_cons_self
      refine Builds.bind (f := fun _ => todo.forM f) ((hstep done x t₁ hmem hI).mono fun _ t₂ hI₂ => ?_)
      exact ih (done ++ [x]) t₂ (by rw [List.append_assoc]; exact hxs) hI₂
  exact along xs [] t rfl hstart

/-- a step that only reads -/
def Quiet (x : Build α) : Prop :=
  ∀ t a t', x t = .ok (a, t') → t' = t

theorem Quiet.builds (hx : Quiet x) (h : ∀ a, Q a t) : Builds t x Q := by
  intro a t' hrun
  rw [hx t a t' hrun]
  exact h a

theorem quiet_pure (a : α) : Quiet (pure a : Build α) := by
  intro t a' t' hx
  cases hx
  rfl

theorem quiet_lift (x : Except Fault α) : Quiet (liftM x : Build α) := by
  intro t a t' hx
  obtain ⟨a₁, _, hdone⟩ := Run.of_except_bind hx
  cases hdone
  rfl

theorem Quiet.bind {f : α → Build β} (hx : Quiet x) (hf : ∀ a, Quiet (f a)) : Quiet (x >>= f) := by
  intro t b t' hrun
  obtain ⟨⟨a, t₁⟩, hfirst, hnext⟩ := Run.of_except_bind hrun
  rw [hf a t₁ b t' hnext, hx t a t₁ hfirst]

theorem quiet_get : Quiet (get : Build Table) := by
  intro t a t' hx
  cases hx
  rfl

theorem quiet_buildText (n : Node) : Quiet (Table.buildText n) :=
  quiet_get.bind fun _ => quiet_lift _

theorem quiet_buildLine (n : Node) : Quiet (Table.buildLine n) :=
  quiet_get.bind fun _ => quiet_pure _

theorem quiet_mapM {f : γ → Build α} (hf : ∀ x, Quiet (f x)) (xs : List γ) : Quiet (xs.mapM f) := by
  induction xs with
  | nil => exact quiet_pure []
  | cons x xs ih =>
    rw [List.mapM_cons]
    exact (hf x).bind fun _ => ih.bind fun _ => quiet_pure _

theorem quiet_optionMapM {f : γ → Build α} (hf : ∀ x, Quiet (f x)) (x : Option γ) : Quiet (x.mapM f) := by
  cases x with
  | none => exact quiet_pure none
  | some x => exact (hf x).bind fun _ => quiet_pure _

end

/-! ## what a table keeps -/

/-- what is settled about a class when it is entered -/
def ClassDecl.fixed (d : ClassDecl) : Option Node × List ClassId × Option MethodId × ScopeId :=
  (d.body, d.outers, d.enclosingMethod, d.scope)

/-- a class whose node is `n` has this body -/
def Node.Enters (n : Node) (body : Option Node) : Prop :=
  if n.construct = .creation then ∃ b ∈ n.namedChildren, b.kind = "class_body" ∧ body = some b
  else body = n.child? "body"

theorem Node.mem_of_enters {n body : Node} (h : n.Enters (some body)) : body ∈ n.children := by
  unfold Node.Enters at h
  split at h
  · obtain ⟨b, hb, _, heq⟩ := h
    cases heq
    exact mem_of_mem_namedChildren hb
  · exact mem_of_child? h.symm

/-- a method is declared by the node `n` of a tree -/
structure Method.DeclaredBy (m : Method) (n root : Node) : Prop where
  inTree : n ∈ root.preorder
  modifiers : m.modifiers = n.modifiers.1
  isConstructor : m.isConstructor = (n.kind != "method_declaration")

/-- whether a member of a class declares a class itself -/
def Node.declaresMemberClass (member : Node) : Bool :=
  match Table.MemberKind.ofKind member.kind with
  | .nested _ => true
  | .constant => (member.child? "body").isSome
  | _ => false

namespace Table

theorem decl_of_le (t : Table) {c : ClassId} (h : t.classes.size ≤ c) : t.decl c = default := by
  rw [decl, Array.getD_eq_getD_getElem?, Array.getElem?_eq_none h]
  rfl

theorem lt_of_body {t : Table} {c : ClassId} {body : Node} (h : (t.decl c).body = some body) :
    c < t.classes.size := by
  rcases Nat.lt_or_ge c t.classes.size with hlt | hge
  · exact hlt
  · rw [t.decl_of_le hge] at h
    cases h

theorem mem_methods_of_node {t : Table} {m : MethodId} {n : Node} (h : (t.method m).node = some n) :
    m.owner < t.classes.size ∧ t.method m ∈ (t.decl m.owner).methods := by
  rw [method, Array.getD_eq_getD_getElem?] at h ⊢
  cases hmethod : (t.decl m.owner).methods[m.index]? with
  | none =>
    rw [hmethod] at h
    cases h
  | some found =>
    refine ⟨?_, Array.mem_of_getElem? hmethod⟩
    rcases Nat.lt_or_ge m.owner t.classes.size with hlt | hge
    · exact hlt
    · rw [t.decl_of_le hge] at hmethod
      cases hmethod

structure Grows (t t' : Table) : Prop where
  source : t'.source = t.source
  size : t.classes.size ≤ t'.classes.size
  fixed : ∀ c < t.classes.size, (t'.decl c).fixed = (t.decl c).fixed
  scopes : t.scopes.Grows t'.scopes
  declared : t.declared <:+ t'.declared

/-- the classes around a level enclose each other -/
def Nested (t : Table) (around : List ClassId) : Prop :=
  (∀ c ∈ around, c < t.classes.size) ∧ around.Pairwise fun k l => l ∈ (t.decl k).outers

structure Sound (t : Table) : Prop where
  /-- the outermost level stands in no class -/
  outermost : t.scopes.Stands Scopes.rootId []
  closed : t.scopes.Closed
  nested : ∀ id < t.scopes.frames.size, t.Nested (t.scopes.classes id)
  classScope : ∀ c < t.classes.size, ∃ around, t.scopes.Stands (t.decl c).scope (c :: around)
  outers_lt : ∀ c < t.classes.size, ∀ o ∈ (t.decl c).outers, o < c
  outers_trans : ∀ c < t.classes.size, ∀ o ∈ (t.decl c).outers, (t.decl o).outers ⊆ (t.decl c).outers
  enclosing : ∀ c < t.classes.size, ∀ m, (t.decl c).enclosingMethod = some m →
    (t.decl c).outers.head? = some m.owner
  body : ∀ c < t.classes.size, ∀ body, (t.decl c).body = some body → body ∈ t.source.root.preorder
  declared : ∀ e ∈ t.declared, e.2 < t.classes.size ∧
    ∃ n ∈ t.source.root.preorder, n.key = e.1 ∧ n.Enters (t.decl e.2).body
  methods : ∀ c < t.classes.size, ∀ m ∈ (t.decl c).methods, ∀ n, m.node = some n →
    m.DeclaredBy n t.source.root

theorem Sound.declaredBy {t : Table} (h : t.Sound) {m : MethodId} {n : Node}
    (hnode : (t.method m).node = some n) : (t.method m).DeclaredBy n t.source.root := by
  obtain ⟨hlt, hmem⟩ := mem_methods_of_node hnode
  exact h.methods m.owner hlt _ hmem n hnode

/-- the members of a class that declare classes were entered -/
def Covered (t : Table) (c : ClassId) : Prop :=
  ∀ body, (t.decl c).body = some body → ∀ member ∈ memberNodes body,
    member.declaresMemberClass = true → member.key ∈ t.declared.map (·.1)

structure Advances (t t' : Table) : Prop where
  grows : t.Grows t'
  sound : t'.Sound
  covered : ∀ c, t.classes.size ≤ c → c < t'.classes.size → t'.Covered c

variable {t t' t'' : Table}

theorem Grows.refl (t : Table) : t.Grows t :=
  ⟨rfl, Nat.le_refl _, fun _ _ => rfl, .refl _, List.suffix_rfl⟩

theorem Grows.trans (h : t.Grows t') (h' : t'.Grows t'') : t.Grows t'' where
  source := h'.source.trans h.source
  size := Nat.le_trans h.size h'.size
  fixed c hc := (h'.fixed c (Nat.lt_of_lt_of_le hc h.size)).trans (h.fixed c hc)
  scopes := h.scopes.trans h'.scopes
  declared := h.declared.trans h'.declared

section
variable (h : t.Grows t') {c : ClassId} (hc : c < t.classes.size)
include h hc

theorem Grows.body : (t'.decl c).body = (t.decl c).body :=
  congrArg (·.1) (h.fixed c hc)

theorem Grows.outers : (t'.decl c).outers = (t.decl c).outers :=
  congrArg (·.2.1) (h.fixed c hc)

theorem Grows.enclosingMethod : (t'.decl c).enclosingMethod = (t.decl c).enclosingMethod :=
  congrArg (·.2.2.1) (h.fixed c hc)

theorem Grows.scope : (t'.decl c).scope = (t.decl c).scope :=
  congrArg (·.2.2.2) (h.fixed c hc)

theorem Covered.grows (hcovered : t.Covered c) : t'.Covered c := by
  intro body hbody member hmember hdeclares
  rw [h.body hc] at hbody
  obtain ⟨e, he, hkey⟩ := List.mem_map.mp (hcovered body hbody member hmember hdeclares)
  exact List.mem_map.mpr ⟨e, h.declared.subset he, hkey⟩

end

theorem Nested.grows {around : List ClassId} (hnested : t.Nested around) (h : t.Grows t') :
    t'.Nested around := by
  refine ⟨fun c hc => Nat.lt_of_lt_of_le (hnested.1 c hc) h.size, ?_⟩
  refine hnested.2.imp_of_mem fun {k l} hk _ hl => ?_
  rw [h.outers (hnested.1 k hk)]
  exact hl

theorem Sound.advances (h : t.Sound) : t.Advances t :=
  ⟨.refl t, h, fun _ hge hlt => absurd hlt (Nat.not_lt.mpr hge)⟩

theorem Advances.trans (h : t.Advances t') (h' : t'.Advances t'') : t.Advances t'' := by
  refine ⟨h.grows.trans h'.grows, h'.sound, fun c hge hlt => ?_⟩
  by_cases hc : c < t'.classes.size
  · exact (h.covered c hge hc).grows h'.grows hc
  · exact h'.covered c (Nat.not_lt.mp hc) hlt

/-! ## changes that enter no class -/

structure Fills (t t' : Table) : Prop where
  advances : t.Advances t'
  size : t'.classes.size = t.classes.size

theorem Fills.trans (h : t.Fills t') (h' : t'.Fills t'') : t.Fills t'' :=
  ⟨h.advances.trans h'.advances, h'.size.trans h.size⟩

theorem Fills.sound (h : t.Fills t') : t'.Sound :=
  h.advances.sound

theorem Sound.fills (h : t.Sound) : t.Fills t :=
  ⟨h.advances, rfl⟩

theorem Sound.keep (h : t.Sound) (hgrows : t.Grows t') (hsize : t'.classes.size = t.classes.size)
    (hdeclared : t'.declared = t.declared) (hopens : t.scopes.Opens t'.scopes)
    (hmethods : ∀ c < t.classes.size, ∀ m ∈ (t'.decl c).methods, m ∈ (t.decl c).methods ∨
      ∀ n, m.node = some n → m.DeclaredBy n t.source.root) : t.Fills t' := by
  refine ⟨⟨hgrows, ?_, fun c hge hlt => absurd hlt (by omega)⟩, hsize⟩
  refine ⟨h.outermost.grows hgrows.scopes, hopens.closed, ?_, ?_, ?_, ?_, ?_, ?_, ?_, ?_⟩
  · intro id hid
    obtain ⟨old, hold, heq⟩ := hopens.around id hid
    rw [heq]
    exact (h.nested old hold).grows hgrows
  · intro c hc
    rw [hsize] at hc
    obtain ⟨around, hstands⟩ := h.classScope c hc
    rw [hgrows.scope hc]
    exact ⟨around, hstands.grows hgrows.scopes⟩
  · intro c hc
    rw [hsize] at hc
    rw [hgrows.outers hc]
    exact h.outers_lt c hc
  · intro c hc o ho
    rw [hsize] at hc
    rw [hgrows.outers hc] at ho ⊢
    rw [hgrows.outers (Nat.lt_trans (h.outers_lt c hc o ho) hc)]
    exact h.outers_trans c hc o ho
  · intro c hc
    rw [hsize] at hc
    rw [hgrows.outers hc, hgrows.enclosingMethod hc]
    exact h.enclosing c hc
  · intro c hc
    rw [hsize] at hc
    rw [hgrows.body hc, hgrows.source]
    exact h.body c hc
  · intro e he
    rw [hdeclared] at he
    obtain ⟨hlt, n, hn, hkey, henters⟩ := h.declared e he
    refine ⟨hsize ▸ hlt, n, hgrows.source ▸ hn, hkey, ?_⟩
    rw [hgrows.body hlt]
    exact henters
  · intro c hc m hm n hn
    rw [hsize] at hc
    rw [hgrows.source]
    rcases hmethods c hc m hm with hold | hnew
    · exact h.methods c hc m hold n hn
    · exact hnew n hn

theorem Sound.setScopes (h : t.Sound) {s : Scopes} (hopens : t.scopes.Opens s) :
    t.Fills { t with scopes := s } :=
  h.keep ⟨rfl, Nat.le_refl _, fun _ _ => rfl, hopens.grows, List.suffix_rfl⟩ rfl rfl hopens
    fun _ _ _ hm => .inl hm

theorem decl_modify_self (t : Table) {c : ClassId} (change : ClassDecl → ClassDecl)
    (hc : c < t.classes.size) :
    decl { t with classes := t.classes.modify c change } c = change (t.decl c) := by
  simp only [decl, Array.getD_eq_getD_getElem?, Array.getElem?_modify, if_pos,
    Array.getElem?_eq_getElem hc, Option.map_some, Option.getD_some]

theorem decl_modify_of_ne (t : Table) {c k : ClassId} (change : ClassDecl → ClassDecl)
    (hk : k ≠ c) : decl { t with classes := t.classes.modify c change } k = t.decl k := by
  simp only [decl, Array.getD_eq_getD_getElem?, Array.getElem?_modify, if_neg hk.symm]

/-! ## entering a class -/

/-- a class that may be entered below the scope `parent` -/
structure Enterable (t : Table) (node : Node) (d : ClassDecl) (parent : ScopeId) : Prop where
  inTree : node ∈ t.source.root.preorder
  enters : node.Enters d.body
  around : ∃ around, t.scopes.Stands parent around ∧ ∀ k ∈ around, k ∈ d.outers
  outers_lt : ∀ o ∈ d.outers, o < t.classes.size
  outers_trans : ∀ o ∈ d.outers, (t.decl o).outers ⊆ d.outers
  enclosing : ∀ m, d.enclosingMethod = some m → d.outers.head? = some m.owner
  methods : ∀ m ∈ d.methods, m.node = none

/-- the table with one more class -/
def entered (t : Table) (node : Node) (d : ClassDecl) (parent : ScopeId) (shown : String) : Table :=
  { t with
    classes := t.classes.push { d with scope := t.scopes.frames.size }
    declared := (node.key, t.classes.size) :: t.declared
    scopes := (t.scopes.enterClass parent t.classes.size shown).2 }

theorem modify_push_size {α : Type} (xs : Array α) (x : α) (change : α → α) :
    (xs.push x).modify xs.size change = xs.push (change x) := by
  apply Array.ext_getElem?
  intro i
  rw [Array.getElem?_modify, Array.getElem?_push, Array.getElem?_push]
  by_cases hi : i = xs.size
  · rw [if_pos hi.symm, if_pos hi, if_pos hi]
    rfl
  · rw [if_neg (Ne.symm hi), if_neg hi, if_neg hi]

theorem builds_register {node : Node} {d : ClassDecl} {parent : ScopeId}
    {Q : ClassId → Table → Prop} (h : ∀ shown, Q t.classes.size (t.entered node d parent shown)) :
    Builds t (register node d parent) Q := by
  intro c t' hx
  cases hx
  have hdone := h (displayName { t with
    classes := t.classes.push d, declared := (node.key, t.classes.size) :: t.declared } t.classes.size)
  rw [entered, ← modify_push_size t.classes d fun d => { d with scope := t.scopes.frames.size }] at hdone
  exact hdone

section
variable (t) (node : Node) (d : ClassDecl) (parent : ScopeId) (shown : String)

theorem size_entered : (t.entered node d parent shown).classes.size = t.classes.size + 1 :=
  Array.size_push _

theorem decl_entered_self : (t.entered node d parent shown).decl t.classes.size =
    { d with scope := t.scopes.frames.size } := by
  show (t.classes.push _).getD t.classes.size default = _
  rw [Array.getD_eq_getD_getElem?, Array.getElem?_push_size]
  rfl

theorem decl_entered_of_lt {c : ClassId} (hc : c < t.classes.size) :
    (t.entered node d parent shown).decl c = t.decl c := by
  show (t.classes.push _).getD c default = t.classes.getD c default
  rw [Array.getD_eq_getD_getElem?, Array.getElem?_push_lt hc, Array.getD_eq_getD_getElem?,
    Array.getElem?_eq_getElem hc]

theorem grows_entered : t.Grows (t.entered node d parent shown) where
  source := rfl
  size := by rw [size_entered]; omega
  fixed c hc := by rw [decl_entered_of_lt t node d parent shown hc]
  scopes := Scopes.grows_add _ _
  declared := List.suffix_cons _ _

end

theorem Sound.entered (h : t.Sound) {node : Node} {d : ClassDecl} {parent : ScopeId}
    (hd : t.Enterable node d parent) (shown : String) : (t.entered node d parent shown).Sound := by
  have hgrows := grows_entered t node d parent shown
  have hself := decl_entered_self t node d parent shown
  have hold := fun c hc => decl_entered_of_lt t node d parent shown (c := c) hc
  have hcases : ∀ c < (t.entered node d parent shown).classes.size,
      c < t.classes.size ∨ c = t.classes.size := by
    intro c hc
    rw [size_entered] at hc
    exact Nat.lt_succ_iff_lt_or_eq.mp hc
  obtain ⟨around, hparent, haround⟩ := hd.around
  have hlevel : (t.entered node d parent shown).scopes.Stands t.scopes.frames.size
      (t.classes.size :: around) := hparent.enterClass t.classes.size shown
  have hlevels : ∀ id < (t.entered node d parent shown).scopes.frames.size,
      id < t.scopes.frames.size ∨ id = t.scopes.frames.size := by
    intro id hid
    have hsize : (t.entered node d parent shown).scopes.frames.size = t.scopes.frames.size + 1 :=
      Scopes.size_add _ _
    rw [hsize] at hid
    exact Nat.lt_succ_iff_lt_or_eq.mp hid
  refine ⟨h.outermost.grows hgrows.scopes, ?_, ?_, ?_, ?_, ?_, ?_, ?_, ?_, ?_⟩
  · intro id hid
    rcases hlevels id hid with hid | rfl
    · exact (h.closed id hid).grows hgrows.scopes
    · exact hlevel.valid
  · intro id hid
    rcases hlevels id hid with hid | rfl
    · rw [hgrows.scopes.classes (h.closed id hid)]
      exact (h.nested id hid).grows hgrows
    · obtain ⟨hlt, hpairwise⟩ := (hparent.classes ▸ h.nested parent hparent.valid.lt).grows hgrows
      rw [hlevel.classes]
      refine ⟨List.forall_mem_cons.mpr ⟨?_, hlt⟩, List.pairwise_cons.mpr ⟨fun l hl => ?_, hpairwise⟩⟩
      · rw [size_entered]
        exact Nat.lt_succ_self _
      · rw [hself]
        exact haround l hl
  · intro c hc
    rcases hcases c hc with hc | rfl
    · obtain ⟨outer, hstands⟩ := h.classScope c hc
      rw [hold c hc]
      exact ⟨outer, hstands.grows hgrows.scopes⟩
    · rw [hself]
      exact ⟨around, hlevel⟩
  · intro c hc o ho
    rcases hcases c hc with hc | rfl
    · rw [hold c hc] at ho
      exact h.outers_lt c hc o ho
    · rw [hself] at ho
      exact hd.outers_lt o ho
  · intro c hc o ho
    rcases hcases c hc with hc | rfl
    · rw [hold c hc] at ho ⊢
      rw [hold o (Nat.lt_trans (h.outers_lt c hc o ho) hc)]
      exact h.outers_trans c hc o ho
    · rw [hself] at ho ⊢
      rw [hold o (hd.outers_lt o ho)]
      exact hd.outers_trans o ho
  · intro c hc m hm
    rcases hcases c hc with hc | rfl
    · rw [hold c hc] at hm ⊢
      exact h.enclosing c hc m hm
    · rw [hself] at hm ⊢
      exact hd.enclosing m hm
  · intro c hc body hbody
    rcases hcases c hc with hc | rfl
    · rw [hold c hc] at hbody
      exact h.body c hc body hbody
    · rw [hself] at hbody
      exact Node.mem_preorder_of_mem_children (Node.mem_of_enters (hbody ▸ hd.enters)) hd.inTree
  · intro e he
    rcases List.mem_cons.mp he with rfl | he
    · refine ⟨by rw [size_entered]; exact Nat.lt_succ_self _, node, hd.inTree, rfl, ?_⟩
      rw [hself]
      exact hd.enters
    · obtain ⟨hlt, n, hn, hkey, henters⟩ := h.declared e he
      refine ⟨Nat.lt_of_lt_of_le hlt hgrows.size, n, hn, hkey, ?_⟩
      rw [hold e.2 hlt]
      exact henters
  · intro c hc m hm n hn
    rcases hcases c hc with hc | rfl
    · rw [hold c hc] at hm
      exact h.methods c hc m hm n hn
    · rw [hself] at hm
      rw [hd.methods m hm] at hn
      cases hn

end Table

end StaticPromotion
