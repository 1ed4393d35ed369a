import StaticPromotion.Proofs.Growth

/-!
# The block levels around a scope

Code sees the variables and local types of the levels around it, up to the level of the nearest class. The two passes over a
unit keep such levels in different stores and under different numbers, but they open and fill them by the same steps. So what
is declared in them, level by level, is the same.

* `Scopes.blocks sc`      what is declared in the block levels from `sc` outwards;
* `Scopes.Spares free a b`   the store grows from `a` to `b`, and of the block levels only the free ones are filled;
* `Scopes.Twin a b x y`   the block levels from `x` in the one store and from `y` in the other hold the same;
* `Scopes.Twins`          the same for the two scopes that a plan is carried out in. `Twins.quiet`, `Twins.locate` and
                          `Twins.after` keep it along a plan;
* `Scopes.Copied`         a snapshot copies the block levels, `Scopes.exists_copied`.
-/

namespace StaticPromotion

/-- the variables and the local types of a level -/
abbrev Content := List String × Registry ClassId

def Frame.content (f : Frame) : Content :=
  (f.locals, f.types)

namespace Scopes

variable {id : ScopeId} {change : Frame → Frame}

/-! ## block levels -/

/-- what is declared in the levels at the front of a chain, up to the first class level -/
def blocksOf (s : Scopes) (ids : List ScopeId) : List Content :=
  ((ids.map s.frame).takeWhile fun f => !f.isClassScope).map Frame.content

def blocks (s : Scopes) (sc : ScopeId) : List Content :=
  s.blocksOf (s.chain sc)

theorem blocksOf_cons_of_block {s : Scopes} (h : (s.frame id).cls = none) (ids : List ScopeId) :
    s.blocksOf (id :: ids) = (s.frame id).content :: s.blocksOf ids := by
  rw [blocksOf, List.map_cons, List.takeWhile_cons_of_pos (by simp [Frame.isClassScope, h])]
  rfl

theorem blocksOf_cons_of_class {s : Scopes} {c : ClassId} (h : (s.frame id).cls = some c)
    (ids : List ScopeId) : s.blocksOf (id :: ids) = [] := by
  rw [blocksOf, List.map_cons, List.takeWhile_cons_of_neg (by simp [Frame.isClassScope, h])]
  rfl

theorem blocksOf_congr {a b : Scopes} {ids : List ScopeId}
    (h : ∀ id ∈ ids, (b.frame id).cls = (a.frame id).cls ∧
      ((a.frame id).cls = none → b.frame id = a.frame id)) : b.blocksOf ids = a.blocksOf ids := by
  induction ids with
  | nil => rfl
  | cons id ids ih =>
    obtain ⟨hcls, hframe⟩ := h id List.mem_cons_self
    cases hblock : (a.frame id).cls with
    | none =>
      rw [blocksOf_cons_of_block hblock, blocksOf_cons_of_block (hcls.trans hblock), hframe hblock,
        ih fun x hx => h x (List.mem_cons_of_mem _ hx)]
    | some c => rw [blocksOf_cons_of_class hblock, blocksOf_cons_of_class (hcls.trans hblock)]

/-! ## stores that keep block levels -/

structure Spares (free : ScopeId → Prop) (a b : Scopes) : Prop where
  grows : a.Grows b
  frame : ∀ id < a.frames.size, ¬ free id → (a.frame id).cls = none → b.frame id = a.frame id

section
variable {free free' : ScopeId → Prop} {a b c : Scopes}

variable {sc : ScopeId} {s s' : Scopes} {source : SourceUnit}

theorem Spares.refl (free : ScopeId → Prop) (a : Scopes) : Spares free a a :=
  ⟨.refl a, fun _ _ _ _ => rfl⟩

/-- what is free later on was free before, or has come since -/
theorem Spares.trans (h : Spares free a b) (h' : Spares free' b c)
    (hfree : ∀ id < a.frames.size, free' id → free id) : Spares free a c := by
  refine ⟨h.grows.trans h'.grows, fun id hid hkept hblock => ?_⟩
  rw [h'.frame id (Nat.lt_of_lt_of_le hid h.grows.size) (fun hnow => hkept (hfree id hid hnow))
    ((h.grows.cls id hid).trans hblock), h.frame id hid hkept hblock]

theorem Spares.andThen (h : Spares free a b) (h' : Spares free b c) : Spares free a c :=
  h.trans h' fun _ _ hid => hid

theorem Spares.mono (h : Spares free a b)
    (hfree : ∀ id < a.frames.size, (a.frame id).cls = none → free id → free' id) : Spares free' a b :=
  ⟨h.grows, fun id hid hkept hblock =>
    h.frame id hid (fun hold => hkept (hfree id hid hblock hold)) hblock⟩

theorem Spares.blocksOf (h : Spares free a b) {ids : List ScopeId}
    (hids : ∀ id ∈ ids, id < a.frames.size ∧ ¬ free id) : b.blocksOf ids = a.blocksOf ids :=
  blocksOf_congr fun id hid => ⟨h.grows.cls id (hids id hid).1, h.frame id (hids id hid).1 (hids id hid).2⟩

theorem Spares.blocks (h : Spares free a b) (hvalid : a.Valid sc)
    (hkept : ∀ id ∈ a.chain sc, ¬ free id) : b.blocks sc = a.blocks sc := by
  rw [Scopes.blocks, h.grows.chain hvalid.lt]
  exact h.blocksOf fun id hid => ⟨hvalid id hid, hkept id hid⟩

theorem Keeps.spares (h : s.Keeps s') : Spares (fun _ => False) s s' :=
  ⟨h.grows, fun id hid _ _ => h.frame id hid⟩

theorem spares_child (s : Scopes) (parent : ScopeId) (label : String) :
    Spares (fun _ => False) s (s.child parent label).2 :=
  ((Keeps.refl s).child parent label).spares

theorem spares_modifyFrame (id : ScopeId) (h : s.Grows (s.modifyFrame id change)) :
    Spares (· = id) s (s.modifyFrame id change) :=
  ⟨h, fun _ _ hne _ => frame_modifyFrame_of_ne s change hne⟩

theorem spares_declareAll (s : Scopes) (id : ScopeId) (names : List String) :
    Spares (· = id) s (s.declareAll id names) := by
  induction names generalizing s with
  | nil => exact .refl _ s
  | cons name names ih =>
    exact (spares_modifyFrame id (s.grows_declare id name)).andThen (ih _)

theorem spares_declareType (s : Scopes) (id : ScopeId) (name : String) (k : ClassId) :
    Spares (· = id) s (s.declareType id name k) :=
  spares_modifyFrame id (s.grows_declareType id name k)

theorem spares_declareNodes {names : List Node} (h : s.declareNodes source id names = .ok s') :
    Spares (· = id) s s' := by
  obtain ⟨texts, _, hdone⟩ := Run.of_except_bind h
  cases hdone
  exact spares_declareAll s id texts

theorem spares_childDeclaring {parent : ScopeId} {label : String} {names : List Node}
    (h : s.childDeclaring source parent label names = .ok (sc, s')) :
    sc = s.frames.size ∧ Spares (fun _ => False) s s' :=
  ((Keeps.refl s).childDeclaring h).imp_right Keeps.spares

theorem spares_locate {here inner : ScopeId} {place : Place}
    (h : place.locate source here inner s = .ok (sc, s')) :
    (sc = here ∨ sc = inner ∨ s.frames.size ≤ sc) ∧ Spares (fun _ => False) s s' := by
  obtain ⟨hkeeps, hsc⟩ := (Keeps.refl s).locate h (fun id => id = here ∨ id = inner ∨ s.frames.size ≤ id)
    fun _ hnew => .inr (.inr hnew)
  exact ⟨hsc (place.free_of_free (.inl rfl) (.inr (.inl rfl))), hkeeps.spares⟩

/-- a step fills the scopes it is carried out in, and opens others -/
theorem spares_perform {here inner : ScopeId} {step : Step}
    {p : Progress} (h : step.perform source here inner s = .ok p) :
    (p.inner = inner ∨ s.frames.size ≤ p.inner) ∧ Spares (fun id => id = here ∨ id = inner) s p.scopes := by
  cases Step.performs h with
  | enter hopen =>
    obtain ⟨rfl, hspares⟩ := spares_childDeclaring hopen
    exact ⟨.inr (Nat.le_refl _), hspares.mono fun _ _ _ hid => hid.elim⟩
  | declare hplace hfilled =>
    obtain ⟨hsc, hspares⟩ := spares_locate hplace
    refine ⟨.inl rfl, (hspares.mono fun _ _ _ hid => hid.elim).trans (spares_declareNodes hfilled) ?_⟩
    rintro id hid rfl
    rcases hsc with hhere | hinner | hnew
    · exact .inl hhere
    · exact .inr hinner
    · exact absurd hid (Nat.not_lt.mpr hnew)
  | visit hplace => exact ⟨.inl rfl, (spares_locate hplace).2.mono fun _ _ _ hid => hid.elim⟩
  | caseConstant | localClass | anonymousClass => exact ⟨.inl rfl, .refl _ s⟩

end

/-! ## the same levels in two stores -/

/-- a scope that is none of its own ancestors -/
structure Rooted (s : Scopes) (sc : ScopeId) : Prop where
  valid : s.Valid sc
  fresh : sc ∉ (s.frame sc).ancestors

section
variable {a b a' b' : Scopes} {x y i j u v : ScopeId}

variable {s : Scopes} {parent : ScopeId} {source : SourceUnit} {names : List Node} {label label' : String}
  {free free' : ScopeId → Prop}

theorem Rooted.grows (h : a.Rooted x) (hgrows : a.Grows a') : a'.Rooted x :=
  ⟨h.valid.grows hgrows, by rw [hgrows.ancestors x h.valid.lt]; exact h.fresh⟩

theorem rooted_add {f : Frame} (h : ∀ id ∈ f.ancestors, id < s.frames.size) :
    (s.add f).2.Rooted (s.add f).1 := by
  refine ⟨valid_add h, fun hmem => ?_⟩
  rw [show (s.add f).2.frame (s.add f).1 = f from s.frame_add_self f] at hmem
  exact Nat.lt_irrefl _ (h _ hmem)

theorem rooted_child (h : s.Valid parent) (label : String) :
    (s.child parent label).2.Rooted (s.child parent label).1 :=
  rooted_add h

theorem blocks_of_block {sc : ScopeId} (h : (s.frame sc).cls = none) :
    s.blocks sc = (s.frame sc).content :: s.blocksOf (s.frame sc).ancestors :=
  blocksOf_cons_of_block h _

theorem blocks_of_class {sc : ScopeId} {c : ClassId} (h : (s.frame sc).cls = some c) : s.blocks sc = [] :=
  blocksOf_cons_of_class h _

/-- a new level is empty, and inside the one it is opened in -/
theorem blocks_child (h : s.Valid parent) (label : String) :
    (s.child parent label).2.blocks (s.child parent label).1 = ([], []) :: s.blocks parent := by
  have hframe : (s.child parent label).2.frame (s.child parent label).1 =
      { label, ancestors := s.chain parent } := s.frame_add_self _
  rw [blocks_of_block (by rw [hframe]), hframe]
  exact congrArg (_ :: ·) ((spares_child s parent label).blocksOf fun id hid => ⟨h id hid, not_false⟩)

structure Twin (a b : Scopes) (x y : ScopeId) : Prop where
  left : a.Rooted x
  right : b.Rooted y
  blocks : a.blocks x = b.blocks y

/-- a change of the declarations in a level -/
structure Fills (change : Frame → Frame) (fill : Content → Content) : Prop where
  cls : ∀ f, (change f).cls = f.cls
  ancestors : ∀ f, (change f).ancestors = f.ancestors
  content : ∀ f, (change f).content = fill f.content

theorem Rooted.blocks_fill {fill : Content → Content} (hchange : Fills change fill) (h : a.Rooted x) :
    (a.modifyFrame x change).blocks x = (a.blocks x).modifyHead fill := by
  have hgrows := a.grows_modifyFrame x change hchange.cls hchange.ancestors
  have hframe := a.frame_modifyFrame_self change h.valid.lt
  cases hblock : (a.frame x).cls with
  | none =>
    rw [blocks_of_block hblock, blocks_of_block (by rw [hframe, hchange.cls, hblock]), hframe,
      hchange.content, hchange.ancestors, List.modifyHead_cons]
    refine congrArg (_ :: ·) ((spares_modifyFrame x hgrows).blocksOf fun id hid => ⟨?_, ?_⟩)
    · exact h.valid id (List.mem_cons_of_mem _ hid)
    · exact fun heq => h.fresh (heq ▸ hid)
  | some c =>
    rw [blocks_of_class hblock, blocks_of_class (by rw [hframe, hchange.cls, hblock])]
    rfl

theorem Twin.fill {change' : Frame → Frame} {fill : Content → Content} (hchange : Fills change fill)
    (hchange' : Fills change' fill) (h : Twin a b x y) :
    Twin (a.modifyFrame x change) (b.modifyFrame y change') x y where
  left := h.left.grows (a.grows_modifyFrame x change hchange.cls hchange.ancestors)
  right := h.right.grows (b.grows_modifyFrame y change' hchange'.cls hchange'.ancestors)
  blocks := by rw [h.left.blocks_fill hchange, h.right.blocks_fill hchange', h.blocks]

theorem fills_declare (name : String) :
    Fills (fun f => { f with locals := f.locals.insert name })
      fun content => (content.1.insert name, content.2) :=
  ⟨fun _ => rfl, fun _ => rfl, fun _ => rfl⟩

theorem fills_declareType (name : String) (c : ClassId) :
    Fills (fun f => { f with types := f.types.put name c })
      fun content => (content.1, content.2.put name c) :=
  ⟨fun _ => rfl, fun _ => rfl, fun _ => rfl⟩

theorem Twin.declareType (h : Twin a b x y) (name : String) (c : ClassId) :
    Twin (a.declareType x name c) (b.declareType y name c) x y :=
  h.fill (fills_declareType name c) (fills_declareType name c)

theorem Twin.declareAll (h : Twin a b x y) (names : List String) :
    Twin (a.declareAll x names) (b.declareAll y names) x y := by
  induction names generalizing a b with
  | nil => exact h
  | cons name names ih => exact ih (h.fill (fills_declare name) (fills_declare name))

theorem Twin.declareNodes (h : Twin a b x y) (ha : a.declareNodes source x names = .ok a')
    (hb : b.declareNodes source y names = .ok b') : Twin a' b' x y := by
  obtain ⟨texts, htexts, hdone⟩ := Run.of_except_bind ha
  obtain ⟨texts', htexts', hdone'⟩ := Run.of_except_bind hb
  cases htexts.symm.trans htexts'
  cases hdone
  cases hdone'
  exact h.declareAll texts

theorem twin_childDeclaring (hx : a.Valid x) (hy : b.Valid y) (hblocks : a.blocks x = b.blocks y)
    (ha : a.childDeclaring source x label names = .ok (u, a'))
    (hb : b.childDeclaring source y label' names = .ok (v, b')) : Twin a' b' u v := by
  obtain ⟨filled, hnames, hdone⟩ := Run.of_except_bind ha
  obtain ⟨filled', hnames', hdone'⟩ := Run.of_except_bind hb
  cases hdone
  cases hdone'
  have hnew : Twin (a.child x label).2 (b.child y label').2 (a.child x label).1
      (b.child y label').1 := by
    refine ⟨rooted_child hx label, rooted_child hy label', ?_⟩
    rw [blocks_child hx, blocks_child hy, hblocks]
  exact hnew.declareNodes hnames hnames'

theorem Twin.childDeclaring (h : Twin a b x y) (ha : a.childDeclaring source x label names = .ok (u, a'))
    (hb : b.childDeclaring source y label' names = .ok (v, b')) : Twin a' b' u v :=
  twin_childDeclaring h.left.valid h.right.valid h.blocks ha hb

/-- the stores go on, and fill other levels only -/
theorem Twin.spared (h : Twin a b x y) (ha : Spares free a a')
    (hb : Spares free' b b') (hx : ∀ id ∈ a.chain x, ¬ free id) (hy : ∀ id ∈ b.chain y, ¬ free' id) :
    Twin a' b' x y where
  left := h.left.grows ha.grows
  right := h.right.grows hb.grows
  blocks := by rw [ha.blocks h.left.valid hx, hb.blocks h.right.valid hy, h.blocks]

theorem Twin.earlier (h : Twin a b' x y) (hy : b.Rooted y) (hb : Spares (fun _ => False) b b') :
    Twin a b x y :=
  ⟨h.left, hy, by rw [h.blocks, hb.blocks hy.valid fun _ _ => id]⟩

/-! ## the two scopes of a plan -/

/-- a level that was opened directly inside another -/
structure Below (s : Scopes) (here inner : ScopeId) : Prop where
  lt : inner < s.frames.size
  block : (s.frame inner).cls = none
  ancestors : (s.frame inner).ancestors = s.chain here
  apart : inner ∉ s.chain here

theorem Below.grows (h : a.Below x i) (hx : a.Valid x) (hgrows : a.Grows a') : a'.Below x i where
  lt := Nat.lt_of_lt_of_le h.lt hgrows.size
  block := (hgrows.cls i h.lt).trans h.block
  ancestors := by rw [hgrows.ancestors i h.lt, h.ancestors, hgrows.chain hx.lt]
  apart := by rw [hgrows.chain hx.lt]; exact h.apart

theorem Below.rooted (h : a.Below x i) (hx : a.Valid x) : a.Rooted i := by
  refine ⟨fun id hid => ?_, by rw [h.ancestors]; exact h.apart⟩
  rcases List.mem_cons.mp hid with rfl | hid
  · exact h.lt
  · exact hx id (h.ancestors ▸ hid)

theorem Below.blocks (h : a.Below x i) : a.blocks i = (a.frame i).content :: a.blocks x := by
  rw [blocks_of_block h.block, h.ancestors]
  rfl

structure Twins (a b : Scopes) (x i y j : ScopeId) : Prop where
  here : Twin a b x y
  inner : (i = x ∧ j = y) ∨ (a.Below x i ∧ b.Below y j ∧ (a.frame i).content = (b.frame j).content)

theorem Twin.twins (h : Twin a b x y) : Twins a b x x y y :=
  ⟨h, .inl ⟨rfl, rfl⟩⟩

theorem Twins.twin (h : Twins a b x i y j) : Twin a b i j := by
  rcases h.inner with ⟨rfl, rfl⟩ | ⟨hi, hj, hcontent⟩
  · exact h.here
  · refine ⟨hi.rooted h.here.left.valid, hj.rooted h.here.right.valid, ?_⟩
    rw [hi.blocks, hj.blocks, hcontent, h.here.blocks]

/-- what is known of the inner scopes follows from what they hold with those around them -/
theorem Twins.of_twin (h : Twins a b x i y j) (ha : Spares free a a')
    (hb : Spares free' b b') (hhere : Twin a' b' x y) (hinner : Twin a' b' i j) : Twins a' b' x i y j := by
  refine ⟨hhere, ?_⟩
  rcases h.inner with hsame | ⟨hi, hj, _⟩
  · exact .inl hsame
  · have hi' := hi.grows h.here.left.valid ha.grows
    have hj' := hj.grows h.here.right.valid hb.grows
    refine .inr ⟨hi', hj', ?_⟩
    have hblocks := hinner.blocks
    rw [hi'.blocks, hj'.blocks] at hblocks
    exact (List.cons.inj hblocks).1

/-- corresponding places: one of the two scopes, or one that is not around them -/
def SamePlace (a b : Scopes) (x i y j u v : ScopeId) : Prop :=
  (u = x ∧ v = y) ∨ (u = i ∧ v = j) ∨ (u ∉ a.chain i ∧ v ∉ b.chain j)

theorem Twins.chain_subset (h : Twins a b x i y j) : a.chain x ⊆ a.chain i ∧ b.chain y ⊆ b.chain j := by
  rcases h.inner with ⟨rfl, rfl⟩ | ⟨hi, hj, _⟩
  · exact ⟨List.Subset.refl _, List.Subset.refl _⟩
  · refine ⟨fun id hid => List.mem_cons_of_mem _ ?_, fun id hid => List.mem_cons_of_mem _ ?_⟩
    · rwa [hi.ancestors]
    · rwa [hj.ancestors]

/-- levels have been filled that are not around the two scopes -/
theorem Twins.aside (h : Twins a b x i y j) (ha : Spares free a a') (hb : Spares free' b b')
    (hi : ∀ id ∈ a.chain i, ¬ free id) (hj : ∀ id ∈ b.chain j, ¬ free' id) : Twins a' b' x i y j := by
  obtain ⟨hx, hy⟩ := h.chain_subset
  refine h.of_twin ha hb (h.here.spared ha hb ?_ ?_) (h.twin.spared ha hb hi hj)
  · exact fun id hid => hi id (hx hid)
  · exact fun id hid => hj id (hy hid)

theorem Twins.grown (h : Twins a b x i y j) (ha : Spares (fun _ => False) a a')
    (hb : Spares (fun _ => False) b b') : Twins a' b' x i y j :=
  h.aside ha hb (fun _ _ => id) fun _ _ => id

theorem Twins.after (h : Twins a b x i y j) (hplace : SamePlace a b x i y j u v) (ha : Spares (· = u) a a')
    (hb : Spares (· = v) b b') (htwin : Twin a' b' u v) : Twins a' b' x i y j := by
  have hhere := h.here
  rcases hplace with ⟨rfl, rfl⟩ | ⟨rfl, rfl⟩ | ⟨hu, hv⟩
  · rcases h.inner with ⟨rfl, rfl⟩ | ⟨hi, hj, hcontent⟩
    · exact htwin.twins
    · have hi' := hi.grows hhere.left.valid ha.grows
      have hj' := hj.grows hhere.right.valid hb.grows
      have hne : i ≠ u := fun heq => hi.apart (heq ▸ List.mem_cons_self)
      have hne' : j ≠ v := fun heq => hj.apart (heq ▸ List.mem_cons_self)
      refine ⟨htwin, .inr ⟨hi', hj', ?_⟩⟩
      rw [ha.frame i hi.lt hne hi.block, hb.frame j hj.lt hne' hj.block, hcontent]
  · rcases h.inner with ⟨rfl, rfl⟩ | ⟨hi, hj, _⟩
    · exact htwin.twins
    · refine h.of_twin ha hb (hhere.spared ha hb ?_ ?_) htwin
      · exact fun id hid heq => hi.apart (heq ▸ hid)
      · exact fun id hid heq => hj.apart (heq ▸ hid)
  · refine h.aside ha hb ?_ ?_
    · exact fun id hid heq => hu (heq ▸ hid)
    · exact fun id hid heq => hv (heq ▸ hid)

theorem Twins.fresh {names' : List Node} {parent' : ScopeId} (h : Twins a b x i y j)
    (ha : a.childDeclaring source parent label names = .ok (u, a'))
    (hb : b.childDeclaring source parent' label' names' = .ok (v, b')) :
    u ∉ a'.chain i ∧ v ∉ b'.chain j := by
  obtain ⟨rfl, hspares⟩ := spares_childDeclaring ha
  obtain ⟨rfl, hspares'⟩ := spares_childDeclaring hb
  refine ⟨fun hmem => ?_, fun hmem => ?_⟩
  · rw [hspares.grows.chain h.twin.left.valid.lt] at hmem
    exact Nat.lt_irrefl _ (h.twin.left.valid _ hmem)
  · rw [hspares'.grows.chain h.twin.right.valid.lt] at hmem
    exact Nat.lt_irrefl _ (h.twin.right.valid _ hmem)

theorem Twins.locate {place : Place} (h : Twins a b x i y j)
    (ha : place.locate source x i a = .ok (u, a')) (hb : place.locate source y j b = .ok (v, b')) :
    Twins a' b' x i y j ∧ Twin a' b' u v ∧ SamePlace a' b' x i y j u v := by
  induction place generalizing u v a' b' with
  | here =>
    cases ha
    cases hb
    exact ⟨h, h.here, .inl ⟨rfl, rfl⟩⟩
  | inner =>
    cases ha
    cases hb
    exact ⟨h, h.twin, .inr (.inl ⟨rfl, rfl⟩)⟩
  | fresh below label names ih =>
    obtain ⟨⟨parent, a₁⟩, hbelow, hopen⟩ := Run.of_except_bind ha
    obtain ⟨⟨parent', b₁⟩, hbelow', hopen'⟩ := Run.of_except_bind hb
    obtain ⟨htwins, htwin, _⟩ := ih hbelow hbelow'
    exact ⟨htwins.grown (spares_childDeclaring hopen).2 (spares_childDeclaring hopen').2,
      htwin.childDeclaring hopen hopen', .inr (.inr (htwins.fresh hopen hopen'))⟩

theorem Twins.locate_fresh {below : Place}
    (h : Twins a b x i y j) (ha : (Place.fresh below label names).locate source x i a = .ok (u, a'))
    (hb : (Place.fresh below label names).locate source y j b = .ok (v, b')) :
    u ∉ a'.chain i ∧ v ∉ b'.chain j := by
  obtain ⟨⟨parent, a₁⟩, hbelow, hopen⟩ := Run.of_except_bind ha
  obtain ⟨⟨parent', b₁⟩, hbelow', hopen'⟩ := Run.of_except_bind hb
  exact (h.locate hbelow hbelow').1.fresh hopen hopen'

theorem below_childDeclaring
    (hx : a.Valid x) (h : a.childDeclaring source x label names = .ok (u, a')) : a'.Below x u := by
  obtain ⟨filled, hnames, hdone⟩ := Run.of_except_bind h
  cases hdone
  have hframe : (a.child x label).2.frame (a.child x label).1 =
      { label, ancestors := a.chain x } := a.frame_add_self _
  have hgrows := a.grows_child x label
  have hbelow : (a.child x label).2.Below x (a.child x label).1 := by
    refine ⟨(rooted_child hx label).valid.lt, by rw [hframe], ?_, ?_⟩
    · rw [hframe, hgrows.chain hx.lt]
    · rw [hgrows.chain hx.lt]
      exact fun hmem => Nat.lt_irrefl _ (hx _ hmem)
  exact hbelow.grows (hx.grows hgrows) (grows_declareNodes hnames)

theorem Twins.quiet {step : Step} {p q : Progress} (h : Twins a b x i y j)
    (ha : step.perform source x i a = .ok p) (hb : step.perform source y j b = .ok q)
    (hidle : ∀ part place, step ≠ .visit part place) : Twins p.scopes q.scopes x p.inner y q.inner := by
  cases Step.performs ha with
  | enter hopen =>
    obtain ⟨hopen'⟩ := Step.performs hb
    have htwin := h.here.childDeclaring hopen hopen'
    have hu := below_childDeclaring h.here.left.valid hopen
    have hv := below_childDeclaring h.here.right.valid hopen'
    refine ⟨h.here.spared (spares_childDeclaring hopen).2 (spares_childDeclaring hopen').2
      (fun _ _ => id) fun _ _ => id, .inr ⟨hu, hv, ?_⟩⟩
    have hblocks := htwin.blocks
    rw [hu.blocks, hv.blocks] at hblocks
    exact (List.cons.inj hblocks).1
  | declare hplace hfilled =>
    obtain _ | ⟨hplace', hfilled'⟩ := Step.performs hb
    obtain ⟨htwins, htwin, hsame⟩ := h.locate hplace hplace'
    exact htwins.after hsame (spares_declareNodes hfilled) (spares_declareNodes hfilled')
      (htwin.declareNodes hfilled hfilled')
  | visit hplace => exact absurd rfl (hidle _ _)
  | caseConstant | localClass | anonymousClass =>
    cases Step.performs hb
    exact h

end

/-! ## snapshots -/

theorem spares_snapshot (s : Scopes) (sc : ScopeId) : Spares (fun _ => False) s (s.snapshot sc).2 :=
  ((Keeps.refl s).snapshot sc).spares

/-- new levels, which hold what the block levels at the same places hold -/
structure Copied (s s' : Scopes) (blocks copies : List ScopeId) : Prop where
  views : copies.map (fun id => (s'.frame id).view) = blocks.map fun id => (s.frame id).view
  new : ∀ id ∈ copies, s.frames.size ≤ id ∧ id < s'.frames.size
  distinct : copies.Nodup

section
variable {s s' : Scopes} {blocks copies ids : List ScopeId}

theorem Copied.add (h : Copied s s' blocks copies) (hsize : s.frames.size ≤ s'.frames.size) {f : Frame}
    (hview : f.view = (s.frame id).view) :
    Copied s (s'.add f).2 (id :: blocks) (s'.frames.size :: copies) where
  views := by
    have hold : ∀ x ∈ copies, ((s'.add f).2.frame x).view = (s'.frame x).view := fun x hx => by
      rw [frame_add_of_lt s' f (h.new x hx).2]
    rw [List.map_cons, List.map_cons, frame_add_self, hview, List.map_congr_left hold, h.views]
  new x hx := by
    rw [size_add]
    rcases List.mem_cons.mp hx with rfl | hx
    · exact ⟨hsize, Nat.lt_succ_self _⟩
    · exact ⟨(h.new x hx).1, Nat.lt_succ_of_lt (h.new x hx).2⟩
  distinct := List.nodup_cons.mpr ⟨fun hmem => Nat.lt_irrefl _ (h.new _ hmem).2, h.distinct⟩

theorem Copied.cls (h : Copied s s' blocks copies) (hblocks : ∀ id ∈ blocks, (s.frame id).cls = none)
    (hid : id ∈ copies) : (s'.frame id).cls = none := by
  have hview : (s'.frame id).view ∈ blocks.map fun id => (s.frame id).view :=
    h.views ▸ List.mem_map_of_mem hid
  obtain ⟨block, hblock, heq⟩ := List.mem_map.mp hview
  exact (congrArg Prod.fst heq).symm.trans (hblocks block hblock)

/-- a chain is copied up to the nearest class level, and the copy shares that level and all around it -/
theorem exists_copied (hclass : ∃ id ∈ ids, (s.frame id).cls ≠ none) :
    ∃ blocks nearest outer copies, ids = blocks ++ nearest :: outer ∧
      (s.snapshotChain ids).1 = copies ++ nearest :: outer ∧
      (∀ id ∈ blocks, (s.frame id).cls = none) ∧ (s.frame nearest).cls ≠ none ∧
      Copied s (s.snapshotChain ids).2 blocks copies := by
  induction ids with
  | nil =>
    obtain ⟨_, hmem, _⟩ := hclass
    exact absurd hmem List.not_mem_nil
  | cons id rest ih =>
    rw [snapshotChain]
    by_cases hcls : (s.frame id).cls = none
    · have hrest : ∃ x ∈ rest, (s.frame x).cls ≠ none := by
        obtain ⟨x, hx, hne⟩ := hclass
        rcases List.mem_cons.mp hx with rfl | hx
        · exact absurd hcls hne
        · exact ⟨x, hx, hne⟩
      have hgoes : ((s.frame id).isClassScope || (rest.isEmpty && (s.frame id).isBare)) = false := by
        obtain ⟨x, hx, _⟩ := hrest
        rw [Frame.isClassScope, hcls, List.isEmpty_eq_false_iff_exists_mem.mpr ⟨x, hx⟩]
        rfl
      rw [hgoes, if_neg Bool.false_ne_true]
      obtain ⟨blocks, nearest, outer, copies, hids, hchain, hblocks, hnearest, hcopied⟩ := ih hrest
      refine ⟨id :: blocks, nearest, outer, _ :: copies, congrArg (id :: ·) hids, congrArg (_ :: ·) hchain,
        ?_, hnearest, hcopied.add ((Keeps.refl s).snapshotChain rest).size rfl⟩
      exact List.forall_mem_cons.mpr ⟨hcls, hblocks⟩
    · have hstop : (s.frame id).isClassScope = true := Option.isSome_iff_ne_none.mpr hcls
      rw [hstop, Bool.true_or, if_pos rfl]
      exact ⟨[], id, rest, [], rfl, rfl, fun _ hmem => absurd hmem List.not_mem_nil, hcls, rfl,
        fun _ hmem => absurd hmem List.not_mem_nil, List.nodup_nil⟩

theorem exists_class_of_classes {sc : ScopeId} (h : s.classes sc ≠ []) :
    ∃ id ∈ s.chain sc, (s.frame id).cls ≠ none := by
  obtain ⟨c, hc⟩ := List.exists_mem_of_ne_nil _ h
  obtain ⟨id, hid, hcls⟩ := List.mem_filterMap.mp hc
  exact ⟨id, hid, by rw [hcls]; exact Option.some_ne_none c⟩

theorem blocksOf_append {nearest : ScopeId} (hblocks : ∀ id ∈ blocks, (s.frame id).cls = none)
    (hnearest : (s.frame nearest).cls ≠ none) (outer : List ScopeId) :
    s.blocksOf (blocks ++ nearest :: outer) = blocks.map fun id => (s.frame id).content := by
  induction blocks with
  | nil =>
    obtain ⟨c, hc⟩ := Option.ne_none_iff_exists'.mp hnearest
    exact blocksOf_cons_of_class hc outer
  | cons id blocks ih =>
    rw [List.cons_append, blocksOf_cons_of_block (hblocks id List.mem_cons_self),
      ih fun x hx => hblocks x (List.mem_cons_of_mem _ hx), List.map_cons]

/-- the copy holds what the levels hold, also in a later store that has filled none of the new levels -/
theorem blocks_snapshot {later : Scopes} {sc : ScopeId} (hvalid : s.Valid sc)
    (hclass : s.classes sc ≠ []) (hgrows : (s.snapshot sc).2.Grows later)
    (hlater : ∀ id, s.frames.size ≤ id → id < (s.snapshot sc).2.frames.size →
      ((s.snapshot sc).2.frame id).cls = none → later.frame id = (s.snapshot sc).2.frame id) :
    later.blocksOf ((s.snapshot sc).2.chain (s.snapshot sc).1) = s.blocks sc := by
  obtain ⟨blocks, nearest, outer, copies, hids, hchain, hblocks, hnearest, hcopied⟩ :=
    exists_copied (exists_class_of_classes hclass)
  have hsame : ∀ id ∈ copies, later.frame id = (s.snapshot sc).2.frame id := fun id hid =>
    hlater id (hcopied.new id hid).1 (hcopied.new id hid).2 (hcopied.cls hblocks hid)
  have hlt : nearest < s.frames.size := hvalid nearest (hids ▸ List.mem_append_right _ List.mem_cons_self)
  have hshared : (later.frame nearest).cls ≠ none := by
    have hkeeps := (Keeps.refl s).snapshot sc
    rw [hgrows.cls nearest (Nat.lt_of_lt_of_le hlt hkeeps.size), hkeeps.frame nearest hlt]
    exact hnearest
  rw [chain_snapshot, hchain, Scopes.blocks, hids, blocksOf_append hblocks hnearest,
    blocksOf_append (fun id hid => (hsame id hid).symm ▸ hcopied.cls hblocks hid) hshared]
  calc copies.map (fun id => (later.frame id).content)
      = copies.map (fun id => ((s.snapshot sc).2.frame id).content) :=
        List.map_congr_left fun id hid => by rw [hsame id hid]
    _ = (copies.map fun id => ((s.snapshot sc).2.frame id).view).map Prod.snd := by
        rw [List.map_map]; rfl
    _ = (blocks.map fun id => (s.frame id).view).map Prod.snd := congrArg _ hcopied.views
    _ = blocks.map fun id => (s.frame id).content := by rw [List.map_map]; rfl

end

end Scopes

end StaticPromotion
