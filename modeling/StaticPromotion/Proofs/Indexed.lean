import StaticPromotion.Proofs.Derivation

/-!
# Every built table is sound

What the pass asks of a part of its work is that the scope stands in the class whose code it is, and that the nodes lie in the
tree; then it unfolds a sound table into a sound table.

* `Table.Inside scope c`      the scope stands in the class `c` and in classes around `c`;
* `Table.Entry`               what entering a class leaves behind: one more class, which is yet to be covered;
* `Table.Unfolds outer`       a row of steps in code of the class `outer`: each class entered is followed by the steps in its
                              own code;
* `Duty.Sound`, `Duty.Done`   what is left to do belongs to the table, and the classes in it are entered;
* `Indexes.unfolds`           the pass unfolds every sound table, by induction over its derivation;
* `Table.sound_of_ofSource`   so the table of a unit is sound and covers all its classes.
-/

namespace StaticPromotion

namespace Table

variable {t t' t'' : Table}

variable {c : ClassId} {parent : ScopeId} {node : Node} {outer : Option ClassId}

/-! ## scopes of code -/

structure Inside (t : Table) (scope : ScopeId) (c : ClassId) : Prop where
  lt : c < t.classes.size
  valid : t.scopes.Valid scope
  around : ∀ k ∈ t.scopes.classes scope, k = c ∨ k ∈ (t.decl c).outers

theorem Inside.stands {scope : ScopeId} (h : t.Inside scope c) :
    t.scopes.Stands scope (t.scopes.classes scope) :=
  ⟨h.valid, rfl⟩

theorem Inside.move {sc : ScopeId} {s : Scopes} (h : t.Inside parent c)
    (hstands : s.Stands sc (t.scopes.classes parent)) : Inside { t with scopes := s } sc c :=
  ⟨h.lt, hstands.valid, fun k hk => h.around k (hstands.classes ▸ hk)⟩

theorem Sound.inside (h : t.Sound) (hc : c < t.classes.size) : t.Inside (t.decl c).scope c := by
  obtain ⟨around, hstands⟩ := h.classScope c hc
  refine ⟨hc, hstands.valid, fun k hk => ?_⟩
  have hnested := (hstands.classes ▸ h.nested _ hstands.valid.lt).2
  rw [hstands.classes] at hk
  rcases List.mem_cons.mp hk with rfl | hk
  · exact .inl rfl
  · exact .inr (List.rel_of_pairwise_cons hnested hk)

/-- whose code it is, and its scope -/
def Owned (t : Table) (parent : ScopeId) : Option CodeOwner → Prop
  | none => t.scopes.Stands parent []
  | some owner => t.Inside parent owner.cls ∧ ∀ m, owner.method = some m → m.owner = owner.cls

/-! ## changes that enter no class -/

theorem Sound.revises (h : t.Sound) (hrevises : t.Revises t') : t.Fills t' := by
  refine h.keep ⟨hrevises.source, Nat.le_of_eq hrevises.size.symm, fun k _ => congrArg (·.2) (hrevises.settled k),
    hrevises.scopes ▸ .refl _, hrevises.declared ▸ List.suffix_rfl⟩ hrevises.size hrevises.declared
    ?_ fun c hc m hm => ?_
  · rw [hrevises.scopes]
    exact .refl h.closed
  refine (hrevises.methods c m hm).imp_right fun hnew n hn => ?_
  obtain ⟨hmember, hmodifiers, hconstructor⟩ := hnew n hn
  refine ⟨?_, hmodifiers, hconstructor⟩
  cases hbody : (t.decl c).body with
  | none =>
    rw [membersOf, hbody] at hmember
    cases hmember
  | some body =>
    rw [membersOf_of_body hbody] at hmember
    exact Node.mem_preorder_of_mem_memberNodes hmember (h.body c hc body hbody)

theorem Sound.nameLocal (h : t.Sound) (scope : ScopeId) (c : ClassId) : t.Fills (t.nameLocal scope c) := by
  unfold Table.nameLocal
  split
  · exact h.fills
  · exact h.setScopes ((Scopes.grows_declareType _ scope _ c).opens h.closed (Scopes.size_modifyFrame _ _ _))

/-! ## entering a class -/

/-- one more class, declared by `node` in code of the class `outer`, has been entered -/
structure Entry (outer : Option ClassId) (t t' : Table) (c : ClassId) (node : Node)
    (body : Option Node) : Prop where
  cls : c = t.classes.size
  size : t'.classes.size = c + 1
  grows : t.Grows t'
  sound : t'.Sound
  key : node.key ∈ t'.declared.map (·.1)
  body : (t'.decl c).body = body
  outers : (t'.decl c).outers = t.outersOf outer

section
variable {outer : Option ClassId} {c : ClassId} {node : Node} {body : Option Node}
  (h : Entry outer t t' c node body)
include h

theorem Entry.lt : c < t'.classes.size :=
  h.size ▸ Nat.lt_succ_self c

theorem Entry.fills (hlater : t'.Fills t'') : Entry outer t t'' c node body := by
  refine ⟨h.cls, hlater.size.trans h.size, h.grows.trans hlater.advances.grows, hlater.sound, ?_, ?_, ?_⟩
  · obtain ⟨e, he, hkey⟩ := List.mem_map.mp h.key
    exact List.mem_map.mpr ⟨e, hlater.advances.grows.declared.subset he, hkey⟩
  · rw [hlater.advances.grows.body h.lt, h.body]
  · rw [hlater.advances.grows.outers h.lt, h.outers]

theorem Entry.advances (hlater : t'.Advances t'') (hcovered : t''.Covered c) : t.Advances t'' := by
  refine ⟨h.grows.trans hlater.grows, hlater.sound, fun k hge hlt => ?_⟩
  by_cases hk : k < t'.classes.size
  · have hkc : k = c :=
      Nat.le_antisymm (Nat.le_of_lt_succ (Nat.lt_of_lt_of_eq hk h.size)) (h.cls ▸ hge)
    exact hkc ▸ hcovered
  · exact hlater.covered k (Nat.not_lt.mp hk) hlt

end

theorem Sound.enterable (h : t.Sound) {outer : Option CodeOwner}
    (hnode : node ∈ t.source.root.preorder) (howned : t.Owned parent outer) {d : ClassDecl}
    (henters : node.Enters d.body) (hd : Newcomer t outer d) : t.Enterable node d parent := by
  obtain ⟨houters, henclosing, _, hmethods, _, _⟩ := hd
  cases outer with
  | none =>
    have hnil : d.outers = [] := houters
    refine ⟨hnode, henters, ⟨[], howned, fun k hk => by cases hk⟩, ?_, ?_, ?_, hmethods⟩
    · intro o ho
      rw [hnil] at ho
      cases ho
    · intro o ho
      rw [hnil] at ho
      cases ho
    · intro m hm
      rw [henclosing] at hm
      cases hm
  | some owner =>
    obtain ⟨hinside, hmethod⟩ := howned
    have hcons : d.outers = owner.cls :: (t.decl owner.cls).outers := houters
    refine ⟨hnode, henters, ⟨_, hinside.stands, fun k hk => ?_⟩, ?_, ?_, ?_, hmethods⟩
    · rw [hcons]
      exact List.mem_cons.mpr (hinside.around k hk)
    · intro o ho
      rw [hcons] at ho
      rcases List.mem_cons.mp ho with rfl | ho
      · exact hinside.lt
      · exact Nat.lt_trans (h.outers_lt _ hinside.lt o ho) hinside.lt
    · intro o ho
      rw [hcons] at ho ⊢
      rcases List.mem_cons.mp ho with rfl | ho
      · exact List.subset_cons_self _ _
      · exact List.subset_cons_of_subset _ (h.outers_trans _ hinside.lt o ho)
    · intro m hm
      rw [henclosing] at hm
      rw [hcons, hmethod m hm]
      rfl

theorem Sound.registers (h : t.Sound) {body : Option Node} {outer : Option CodeOwner}
    (hnode : node ∈ t.source.root.preorder) (henters : node.Enters body) (howned : t.Owned parent outer)
    (hregisters : Registers outer node body parent t t') :
    Entry (outer.map (·.cls)) t t' t.classes.size node body := by
  obtain ⟨d, shown, hd, rfl, hnotes⟩ := hregisters.entry
  have hentered := h.entered (h.enterable hnode howned henters hd) shown
  have hentry : Entry (outer.map (·.cls)) t (t.entered node d parent shown) t.classes.size node d.body := by
    refine ⟨rfl, size_entered .., grows_entered .., hentered, List.mem_cons_self, ?_, ?_⟩
    · rw [decl_entered_self]
    · rw [decl_entered_self]
      exact hd.outers
  exact hentry.fills (hentered.revises hnotes.toRevises)

/-- a declaration is no creation, so its class has the body in its `body` field -/
theorem enters_of_ofKind? {kind : ClassKind}
    (h : ClassKind.ofKind? node.kind = some kind) : node.Enters (node.child? "body") := by
  have hconstruct : node.construct = .classDeclaration kind := Construct.ofKind_of_classKind h
  rw [Node.Enters, hconstruct, if_neg (by simp)]

theorem construct_of_constant {member : Node} (h : MemberKind.ofKind member.kind = .constant) :
    member.construct ≠ .creation := by
  unfold MemberKind.ofKind at h
  split at h
  all_goals first | cases h | skip
  · rename_i hkind
    rw [Node.construct, hkind]
    decide
  · split at h <;> cases h

theorem ofKind?_of_nested {kind : String} {flavour : ClassKind}
    (h : MemberKind.ofKind kind = .nested flavour) : ClassKind.ofKind? kind = some flavour := by
  unfold MemberKind.ofKind at h
  split at h
  all_goals first | cases h | skip
  split at h
  · rename_i hkind
    cases h
    exact hkind
  · cases h

/-! ## rows of steps -/

inductive Unfolds : Option ClassId → Table → Table → Prop
  | fills {outer : Option ClassId} {t t' : Table} (h : t.Fills t') : Unfolds outer t t'
  | enter {outer : Option ClassId} {t t₁ t' : Table} {c : ClassId} {node : Node}
      {body : Option Node} (entry : Entry outer t t₁ c node body) (inner : Unfolds (some c) t₁ t')
      (covered : t'.Covered c) : Unfolds outer t t'
  | andThen {outer : Option ClassId} {t t₁ t' : Table} (first : Unfolds outer t t₁)
      (others : Unfolds outer t₁ t') : Unfolds outer t t'

theorem Unfolds.advances (h : Unfolds outer t t') : t.Advances t' := by
  induction h with
  | fills h => exact h.advances
  | enter entry _ covered ih => exact entry.advances ih covered
  | andThen _ _ ihfirst ihothers => exact ihfirst.trans ihothers

theorem Unfolds.grows (h : Unfolds outer t t') : t.Grows t' :=
  h.advances.grows

theorem Unfolds.sound (h : Unfolds outer t t') : t'.Sound :=
  h.advances.sound

theorem Sound.unfolds (h : t.Sound) (outer : Option ClassId) : Unfolds outer t t :=
  .fills h.fills

/-! ## code -/

/-- code of `owner`, in scopes that stand in the classes `around` -/
structure OwnedAround (t : Table) (owner : CodeOwner) (around : List ClassId) : Prop where
  lt : owner.cls < t.classes.size
  around : ∀ k ∈ around, k = owner.cls ∨ k ∈ (t.decl owner.cls).outers
  method : ∀ m, owner.method = some m → m.owner = owner.cls

theorem OwnedAround.grows {owner : CodeOwner} {around : List ClassId}
    (h : t.OwnedAround owner around) (hgrows : t.Grows t') : t'.OwnedAround owner around := by
  refine ⟨Nat.lt_of_lt_of_le h.lt hgrows.size, ?_, h.method⟩
  rw [hgrows.outers h.lt]
  exact h.around

theorem OwnedAround.owned {owner : CodeOwner} {around : List ClassId} {scope : ScopeId}
    (h : t.OwnedAround owner around) (hstands : t.scopes.Stands scope around) :
    t.Owned scope (some owner) :=
  ⟨⟨h.lt, hstands.valid, fun k hk => h.around k (hstands.classes ▸ hk)⟩, h.method⟩

end Table

open Table

/-- the class whose code or members are left to do -/
def Duty.owner : Duty → Option ClassId
  | .code owner _ _ | .steps owner _ _ _ => some owner.cls
  | .cls outer _ _ _ => outer.map (·.cls)
  | .members c _ | .member c _ | .own c _ => some c
  | .unit _ => none

/-- the rest of the plan of `node`, in scopes that stand in the classes `around` -/
structure Table.Remaining (t : Table) (owner : CodeOwner) (here inner : ScopeId) (rest : List Step) (node : Node)
    (around : List ClassId) : Prop where
  inTree : node ∈ t.source.root.preorder
  steps : ∀ step ∈ rest, step.Of node
  owned : t.OwnedAround owner around
  here : t.scopes.Stands here around
  inner : t.scopes.Stands inner around

/-- it belongs to the table -/
def Duty.Sound (t : Table) : Duty → Prop
  | .code owner node scope => t.Owned scope (some owner) ∧ node ∈ t.source.root.preorder
  | .steps owner here inner rest => ∃ node around, t.Remaining owner here inner rest node around
  | .cls outer node body parent => t.Owned parent outer ∧ node ∈ t.source.root.preorder ∧ node.Enters body
  | .members c nodes | .own c nodes => c < t.classes.size ∧ ∀ node ∈ nodes, node ∈ t.source.root.preorder
  | .member c node => c < t.classes.size ∧ node ∈ t.source.root.preorder
  | .unit nodes => ∀ node ∈ nodes, node ∈ t.source.root.preorder

/-- the classes that are members in it are entered -/
def Duty.Done (t : Table) : Duty → Prop
  | .cls _ node _ _ => node.key ∈ t.declared.map (·.1)
  | .members _ nodes => ∀ node ∈ nodes, node.declaresMemberClass = true → node.key ∈ t.declared.map (·.1)
  | .member _ node => node.declaresMemberClass = true → node.key ∈ t.declared.map (·.1)
  | _ => True

variable {t t' : Table}

theorem Table.Grows.declares (h : t.Grows t') {key : Node.Key} (hkey : key ∈ t.declared.map (·.1)) :
    key ∈ t'.declared.map (·.1) := by
  obtain ⟨e, he, heq⟩ := List.mem_map.mp hkey
  exact List.mem_map.mpr ⟨e, h.declared.subset he, heq⟩

theorem Table.Grows.tail_inTree (h : t.Grows t') {node : Node} {rest : List Node}
    (hnodes : ∀ n ∈ node :: rest, n ∈ t.source.root.preorder) : ∀ n ∈ rest, n ∈ t'.source.root.preorder := by
  rw [h.source]
  exact (List.forall_mem_cons.mp hnodes).2

section
variable {owner : CodeOwner} {here inner inner' : ScopeId} {step : Step} {rest : List Step} {node : Node} {around : List ClassId}
  (h : t.Remaining owner here inner (step :: rest) node around)
include h

theorem Table.Remaining.later (hgrows : t.Grows t') (hinner : t'.scopes.Stands inner' around) :
    (Duty.steps owner here inner' rest).Sound t' := by
  refine ⟨node, around, ?_, fun s hs => h.steps s (List.mem_cons_of_mem _ hs), h.owned.grows hgrows,
    h.here.grows hgrows.scopes, hinner⟩
  rw [hgrows.source]
  exact h.inTree

theorem Table.Remaining.captured (hsound : t.Sound) :
    t.Fills { t with scopes := (t.scopes.snapshot here).2 } ∧
      Owned { t with scopes := (t.scopes.snapshot here).2 } (t.scopes.snapshot here).1 (some owner) := by
  obtain ⟨hopens, hcaptured⟩ := Scopes.Stands.snapshot hsound.closed h.here
  have hfills := hsound.setScopes hopens
  exact ⟨hfills, (h.owned.grows hfills.advances.grows).owned hcaptured⟩

end

theorem Step.Of.enters {node creation body : Node} (h : (Step.anonymousClass creation body).Of node) :
    creation.Enters (some body) := by
  obtain ⟨rfl, hconstruct, hbody, hkind⟩ := h
  rw [Node.Enters, if_pos hconstruct]
  exact ⟨body, hbody, hkind, rfl⟩

theorem Node.initializers_subset {member root : Node} (hmember : member ∈ root.preorder) :
    ∀ code ∈ member.initializers, code ∈ root.preorder := by
  intro code hcode
  obtain ⟨d, hd, hcode⟩ := List.mem_flatMap.mp hcode
  exact mem_preorder_of_mem_children (mem_of_child? (Option.mem_toList.mp hcode))
    (mem_preorder_of_mem_children (mem_of_mem_childrenAt hd) hmember)

theorem Node.arguments_subset {member root : Node} (hmember : member ∈ root.preorder) :
    ∀ code ∈ (member.child? "arguments").toList, code ∈ root.preorder := fun _ hcode =>
  mem_preorder_of_mem_children (mem_of_child? (Option.mem_toList.mp hcode)) hmember

theorem Indexes.unfolds {duty : Duty} (h : Indexes duty t t') (hsound : t.Sound) (hduty : duty.Sound t) :
    Unfolds duty.owner t t' ∧ duty.Done t' := by
  induction h with
  | @code owner node scope t t' _ ih =>
    obtain ⟨⟨hinside, hmethod⟩, hnode⟩ := hduty
    exact ih hsound ⟨node, _, hnode, node.of_plan, ⟨hinside.lt, hinside.around, hmethod⟩, hinside.stands, hinside.stands⟩
  | done => exact ⟨hsound.unfolds _, trivial⟩
  | quiet perform _ _ ih =>
    obtain ⟨node, around, left⟩ := hduty
    have hopening := (Step.opening_perform left.here left.inner perform).1
    have hfills := hsound.setScopes (hopening.opens hsound.closed)
    exact ⟨.andThen (.fills hfills) (ih hfills.sound (left.later hfills.advances.grows hopening.stands)).1, trivial⟩
  | @visit owner here inner sc part place rest s t t₁ t' located _ _ ihfirst ihothers =>
    obtain ⟨node, around, left⟩ := hduty
    have perform : (Step.visit part place).perform t.source here inner t.scopes =
        .ok { action := .visit part sc, inner, scopes := s } := by
      rw [Step.perform, located]
      rfl
    obtain ⟨hopening, hpart⟩ := Step.opening_perform left.here left.inner perform
    have hfills := hsound.setScopes (hopening.opens hsound.closed)
    have hfirst := (ihfirst hfills.sound ⟨(left.owned.grows hfills.advances.grows).owned hpart,
      (left.steps _ List.mem_cons_self).mem_preorder left.inTree⟩).1
    have hgrows := hfills.advances.grows.trans hfirst.grows
    have hothers := ihothers hfirst.sound (left.later hgrows (left.inner.grows hgrows.scopes))
    exact ⟨.andThen (.fills hfills) (hfirst.andThen hothers.1), trivial⟩
  | @localClass owner here inner declaration rest t t₁ t' _ _ _ ihfirst ihothers =>
    obtain ⟨node, around, left⟩ := hduty
    obtain ⟨hfills, howned⟩ := left.captured hsound
    have hof := left.steps _ List.mem_cons_self
    obtain ⟨kind, hkind⟩ := hof.kind
    have hfirst := (ihfirst hfills.sound ⟨howned, hof.1 ▸ left.inTree, enters_of_ofKind? hkind⟩).1
    have hnamed := hfirst.sound.nameLocal here t.classes.size
    have hgrows := (hfills.advances.grows.trans hfirst.grows).trans hnamed.advances.grows
    have hothers := ihothers hnamed.sound (left.later hgrows (left.inner.grows hgrows.scopes))
    exact ⟨.andThen (.fills hfills) (hfirst.andThen (.andThen (.fills hnamed) hothers.1)), trivial⟩
  | anonymousClass _ _ _ ihfirst ihothers =>
    obtain ⟨node, around, left⟩ := hduty
    obtain ⟨hfills, howned⟩ := left.captured hsound
    have hof := left.steps _ List.mem_cons_self
    have hfirst := (ihfirst hfills.sound ⟨howned, hof.1 ▸ left.inTree, hof.enters⟩).1
    have hgrows := hfills.advances.grows.trans hfirst.grows
    have hothers := ihothers hfirst.sound (left.later hgrows (left.inner.grows hgrows.scopes))
    exact ⟨.andThen (.fills hfills) (hfirst.andThen hothers.1), trivial⟩
  | @cls outer node body parent t t₁ t' registers _ ih =>
    obtain ⟨howned, hnode, henters⟩ := hduty
    have hentry := hsound.registers hnode henters howned registers
    have hmembers : ∀ member ∈ (body.map memberNodes).getD [], member ∈ t₁.source.root.preorder := by
      intro member hmember
      cases body with
      | none => cases hmember
      | some body =>
        exact Node.mem_preorder_of_mem_memberNodes hmember (hentry.sound.body _ hentry.lt body hentry.body)
    obtain ⟨hunfolds, hdone⟩ := ih hentry.sound ⟨hentry.lt, hmembers⟩
    refine ⟨.enter hentry hunfolds fun body' hbody' => ?_, hunfolds.grows.declares hentry.key⟩
    rw [hunfolds.grows.body hentry.lt, hentry.body] at hbody'
    cases hbody'
    exact hdone
  | noMembers => exact ⟨hsound.unfolds _, fun _ hmember => by cases hmember⟩
  | members _ _ ihfirst ihothers =>
    obtain ⟨hc, hmembers⟩ := hduty
    have hfirst := ihfirst hsound ⟨hc, hmembers _ List.mem_cons_self⟩
    have hgrows := hfirst.1.grows
    have hothers := ihothers hfirst.1.sound ⟨Nat.lt_of_lt_of_le hc hgrows.size, hgrows.tail_inTree hmembers⟩
    refine ⟨hfirst.1.andThen hothers.1, List.forall_mem_cons.mpr ⟨fun hdeclares => ?_, hothers.2⟩⟩
    exact hothers.1.grows.declares (hfirst.2 hdeclares)
  | @idle c member t t' isIdle amends =>
    refine ⟨.fills (hsound.revises amends.toRevises), fun hdeclares => ?_⟩
    unfold Node.declaresMemberClass at hdeclares
    unfold Node.isIdle at isIdle
    split at hdeclares
    · rename_i hkind
      rw [hkind] at isIdle
      cases isIdle
    · rename_i hkind
      rw [hkind] at isIdle
      cases isIdle
    · cases hdeclares
  | fields kind _ ih =>
    refine ⟨(ih hsound ⟨hduty.1, Node.initializers_subset hduty.2⟩).1, fun hdeclares => ?_⟩
    rw [Node.declaresMemberClass, kind] at hdeclares
    cases hdeclares
  | @method c member body id scope label components s t t₁ t' kind hasBody adds opened _ _ ih =>
    obtain ⟨hc, hmember⟩ := hduty
    have hfills := hsound.revises adds.toRevises
    have hc₁ : c < t₁.classes.size := adds.size ▸ hc
    have hinside := hfills.sound.inside hc₁
    have hopening := hinside.stands.childDeclaring opened
    have hscopes := hopening.opens hfills.sound.closed
    have hopens := hscopes.trans (Scopes.opens_declareAll hscopes.closed scope components)
    have hlater := hfills.trans (hfills.sound.setScopes hopens)
    refine ⟨.andThen (.fills hlater) (ih hlater.sound ⟨⟨?_, fun m hm => ?_⟩, ?_⟩).1, fun hdeclares => ?_⟩
    · exact hinside.move (hopening.stands.grows (Scopes.grows_declareAll s scope components))
    · cases hm
      exact adds.owner
    · rw [hlater.advances.grows.source]
      exact Node.mem_preorder_of_mem_children (Node.mem_of_child? hasBody) hmember
    · rw [Node.declaresMemberClass, kind] at hdeclares
      cases hdeclares
  | constant kind noBody _ ih =>
    refine ⟨(ih hsound ⟨hduty.1, Node.arguments_subset hduty.2⟩).1, fun hdeclares => ?_⟩
    rw [Node.declaresMemberClass, kind, noBody] at hdeclares
    cases hdeclares
  | constantBody kind hasBody _ _ _ ihcodes ihnested =>
    obtain ⟨hc, hmember⟩ := hduty
    have hcodes := (ihcodes hsound ⟨hc, Node.arguments_subset hmember⟩).1
    have hinside := hcodes.sound.inside (Nat.lt_of_lt_of_le hc hcodes.grows.size)
    have hnested := ihnested hcodes.sound ⟨⟨hinside, fun m hm => by cases hm⟩, ?_, ?_⟩
    · exact ⟨hcodes.andThen hnested.1, fun _ => hnested.2⟩
    · rw [hcodes.grows.source]
      exact hmember
    · rw [Node.Enters, if_neg (construct_of_constant kind), hasBody]
  | block kind _ ih =>
    refine ⟨(ih hsound ⟨⟨hsound.inside hduty.1, fun m hm => by cases hm⟩, hduty.2⟩).1, fun hdeclares => ?_⟩
    rcases kind with kind | kind <;> rw [Node.declaresMemberClass, kind] at hdeclares <;> cases hdeclares
  | nested kind _ amends ih =>
    have hnested := ih hsound ⟨⟨hsound.inside hduty.1, fun m hm => by cases hm⟩, hduty.2,
      enters_of_ofKind? (ofKind?_of_nested kind)⟩
    have hfills := hnested.1.sound.revises amends.toRevises
    exact ⟨hnested.1.andThen (.fills hfills), fun _ => hfills.advances.grows.declares hnested.2⟩
  | noCode amends => exact ⟨.fills (hsound.revises amends.toRevises), trivial⟩
  | @own c code rest label t t₁ t₂ t' amends _ _ ihfirst ihothers =>
    obtain ⟨hc, hcodes⟩ := hduty
    have hfills := hsound.revises amends.toRevises
    have hinside := hfills.sound.inside (amends.size ▸ hc : c < t₁.classes.size)
    have hlater := hfills.trans (hfills.sound.setScopes (Scopes.opens_child hfills.sound.closed hinside.valid.lt label))
    have hfirst := (ihfirst hlater.sound ⟨⟨hinside.move (hinside.stands.child label), fun m hm => by cases hm⟩, ?_⟩).1
    · have hgrows := hlater.advances.grows.trans hfirst.grows
      have hothers := ihothers hfirst.sound ⟨Nat.lt_of_lt_of_le hc hgrows.size, hgrows.tail_inTree hcodes⟩
      exact ⟨.andThen (.fills hlater) (hfirst.andThen hothers.1), trivial⟩
    · rw [hlater.advances.grows.source]
      exact hcodes code List.mem_cons_self
  | finished => exact ⟨hsound.unfolds _, trivial⟩
  | aside amends _ ih =>
    have hfills := hsound.revises amends.toRevises
    have hothers := ih hfills.sound (hfills.advances.grows.tail_inTree hduty)
    exact ⟨.andThen (.fills hfills) hothers.1, trivial⟩
  | topLevel kind _ amends _ ihfirst ihothers =>
    have hfirst := ihfirst hsound ⟨hsound.outermost, hduty _ List.mem_cons_self, enters_of_ofKind? kind⟩
    have hfills := hfirst.1.sound.revises amends.toRevises
    have hgrows := hfirst.1.grows.trans hfills.advances.grows
    have hothers := ihothers hfills.sound (hgrows.tail_inTree hduty)
    exact ⟨hfirst.1.andThen (.andThen (.fills hfills) hothers.1), trivial⟩

/-! ## the unit -/

namespace Table

theorem sound_start (source : SourceUnit) : Sound { source } where
  outermost := by
    refine ⟨fun id hid => ?_, rfl⟩
    rw [List.mem_singleton.mp hid]
    exact Nat.one_pos
  closed id hid := by
    obtain rfl : id = 0 := Nat.lt_one_iff.mp hid
    intro x hx
    rw [List.mem_singleton.mp hx]
    exact Nat.one_pos
  nested id hid := by
    obtain rfl : id = 0 := Nat.lt_one_iff.mp hid
    exact ⟨fun c hc => (by cases hc), List.Pairwise.nil⟩
  classScope _ hc := by cases hc
  outers_lt _ hc := by cases hc
  outers_trans _ hc := by cases hc
  enclosing _ hc := by cases hc
  body _ hc := by cases hc
  declared _ he := by cases he
  methods _ hc := by cases hc

theorem unfolds_of_indexed {source : SourceUnit} (h : indexed source = .ok t) :
    Unfolds none { source } t := by
  refine ((indexes_of_indexed h).unfolds (sound_start source) fun node hnode => ?_).1
  exact Node.mem_preorder_of_mem_children (Node.mem_of_mem_namedChildren hnode) (Node.mem_preorder_self _)

theorem unfolds_of_ofSource {source : SourceUnit} (h : ofSource source = .ok t) :
    Unfolds none { source } t := by
  obtain ⟨t₀, hindexed, hdone⟩ := Run.of_except_bind h
  cases hdone
  have hunfolds := unfolds_of_indexed hindexed
  exact hunfolds.andThen (.fills (hunfolds.sound.revises (amends_foldl amends_linkSupertypes _ t₀).toRevises))

/-- the table of a unit is sound, and the members of all its classes are entered -/
theorem advances_of_ofSource {source : SourceUnit} (h : ofSource source = .ok t) : Advances { source } t :=
  (unfolds_of_ofSource h).advances

section
variable {source : SourceUnit} (h : ofSource source = .ok t)
include h

theorem sound_of_ofSource : t.Sound :=
  (advances_of_ofSource h).sound

theorem source_of_ofSource : t.source = source :=
  (advances_of_ofSource h).grows.source

theorem covered_of_ofSource {c : ClassId} (hc : c < t.classes.size) : t.Covered c :=
  (advances_of_ofSource h).covered c (Nat.zero_le c) hc

end

end Table

end StaticPromotion
