import StaticPromotion.Proofs.Lockstep

/-!
# Stores of scopes only grow

A level never changes its class or the levels around it; only its declarations grow. So the class that some code stands in,
once its scope is open, stays the same whatever happens later.

* `Scopes.Grows a b`        every level of `a` is in `b`, with the same class and the same ancestors;
* `Scopes.Valid s sc`       the scope `sc` and its ancestors are levels of `s`;
* `Scopes.Stands s sc cs`   the scope `sc` is valid and stands in the classes `cs`, innermost first; kept by growth, and handed
                            on to the levels opened inside;
* `Scopes.Keeps base s`     the levels of `base` are those of `s`, unchanged;
* `Kept`                    a property of stores that opening levels and filling the free ones keeps, and so every walk; an
                            `Invariant` is kept whatever is filled;
* `Lockstep.keeping`        such a property, as a lockstep of a walk with itself. `Lockstep.beside`: until an escape;
* `Uniform`                 walks that are in lockstep with themselves whatever the way on; they make stores grow.
-/

namespace StaticPromotion

variable {parent : ScopeId} {label : String} {place : Place}

namespace Scopes

variable {id sc : ScopeId} {a b s : Scopes} {f : Frame} {around : List ClassId}

/-! ## frames after a change -/

theorem frame_add_of_ne (s : Scopes) (f : Frame) (h : id ≠ s.frames.size) :
    (s.add f).2.frame id = s.frame id := by
  show (s.frames.push f).getD id default = s.frames.getD id default
  rw [Array.getD_eq_getD_getElem?, Array.getElem?_push, if_neg h, Array.getD_eq_getD_getElem?]

theorem frame_add_of_lt (s : Scopes) (f : Frame) (h : id < s.frames.size) :
    (s.add f).2.frame id = s.frame id :=
  frame_add_of_ne s f (Nat.ne_of_lt h)

theorem frame_add_self (s : Scopes) (f : Frame) : (s.add f).2.frame s.frames.size = f := by
  show (s.frames.push f).getD s.frames.size default = f
  rw [Array.getD_eq_getD_getElem?, Array.getElem?_push_size]
  rfl

theorem size_add (s : Scopes) (f : Frame) : (s.add f).2.frames.size = s.frames.size + 1 :=
  Array.size_push f

theorem size_modifyFrame (s : Scopes) (id : ScopeId) (change : Frame → Frame) :
    (s.modifyFrame id change).frames.size = s.frames.size :=
  Array.size_modify

theorem frame_modifyFrame_of_ne (s : Scopes) {other : ScopeId} (change : Frame → Frame)
    (h : other ≠ id) : (s.modifyFrame id change).frame other = s.frame other := by
  show (s.frames.modify id change).getD other default = s.frames.getD other default
  rw [Array.getD_eq_getD_getElem?, Array.getElem?_modify, if_neg (Ne.symm h),
    Array.getD_eq_getD_getElem?]

theorem frame_modifyFrame_self (s : Scopes) (change : Frame → Frame)
    (h : id < s.frames.size) : (s.modifyFrame id change).frame id = change (s.frame id) := by
  show (s.frames.modify id change).getD id default = change (s.frames.getD id default)
  rw [Array.getD_eq_getD_getElem?, Array.getElem?_modify, if_pos rfl, Array.getD_eq_getD_getElem?,
    Array.getElem?_eq_getElem h]
  rfl

theorem frame_of_le (s : Scopes) (h : s.frames.size ≤ id) : s.frame id = default := by
  rw [frame, Array.getD_eq_getD_getElem?, Array.getElem?_eq_none h]
  rfl

/-! ## growth -/

structure Grows (a b : Scopes) : Prop where
  size : a.frames.size ≤ b.frames.size
  cls : ∀ id < a.frames.size, (b.frame id).cls = (a.frame id).cls
  ancestors : ∀ id < a.frames.size, (b.frame id).ancestors = (a.frame id).ancestors

theorem Grows.refl (a : Scopes) : a.Grows a :=
  ⟨Nat.le_refl _, fun _ _ => rfl, fun _ _ => rfl⟩

theorem Grows.trans {c : Scopes} (h : a.Grows b) (h' : b.Grows c) : a.Grows c where
  size := Nat.le_trans h.size h'.size
  cls id hid := (h'.cls id (Nat.lt_of_lt_of_le hid h.size)).trans (h.cls id hid)
  ancestors id hid := (h'.ancestors id (Nat.lt_of_lt_of_le hid h.size)).trans (h.ancestors id hid)

theorem grows_add (s : Scopes) (f : Frame) : s.Grows (s.add f).2 where
  size := by rw [size_add]; omega
  cls id hid := by rw [frame_add_of_lt s f hid]
  ancestors id hid := by rw [frame_add_of_lt s f hid]

theorem grows_child (s : Scopes) (parent : ScopeId) (label : String) : s.Grows (s.child parent label).2 :=
  grows_add s _

theorem grows_modifyFrame (s : Scopes) (id : ScopeId) (change : Frame → Frame)
    (hcls : ∀ f, (change f).cls = f.cls) (hancestors : ∀ f, (change f).ancestors = f.ancestors) :
    s.Grows (s.modifyFrame id change) := by
  refine ⟨Nat.le_of_eq (size_modifyFrame s id change).symm, fun x hx => ?_, fun x hx => ?_⟩
  · by_cases h : x = id
    · rw [h, frame_modifyFrame_self s change (h ▸ hx), hcls]
    · rw [frame_modifyFrame_of_ne s change h]
  · by_cases h : x = id
    · rw [h, frame_modifyFrame_self s change (h ▸ hx), hancestors]
    · rw [frame_modifyFrame_of_ne s change h]

theorem grows_declare (s : Scopes) (id : ScopeId) (name : String) : s.Grows (s.declare id name) :=
  grows_modifyFrame s id _ (fun _ => rfl) fun _ => rfl

theorem grows_declareType (s : Scopes) (id : ScopeId) (name : String) (c : ClassId) :
    s.Grows (s.declareType id name c) :=
  grows_modifyFrame s id _ (fun _ => rfl) fun _ => rfl

theorem grows_declareAll (s : Scopes) (id : ScopeId) (names : List String) :
    s.Grows (s.declareAll id names) := by
  induction names generalizing s with
  | nil => exact .refl s
  | cons name names ih => exact (grows_declare s id name).trans (ih _)

theorem grows_declareNodes {s' : Scopes} {source : SourceUnit} {names : List Node}
    (h : s.declareNodes source id names = .ok s') : s.Grows s' := by
  obtain ⟨texts, _, hdone⟩ := Run.of_except_bind h
  cases hdone
  exact grows_declareAll s id texts

/-! ## the class around a scope -/

def Valid (s : Scopes) (sc : ScopeId) : Prop :=
  ∀ id ∈ s.chain sc, id < s.frames.size

theorem Valid.lt (h : s.Valid sc) : sc < s.frames.size :=
  h sc List.mem_cons_self

theorem Grows.chain (h : a.Grows b) (hsc : sc < a.frames.size) : b.chain sc = a.chain sc := by
  rw [Scopes.chain, Scopes.chain, h.ancestors sc hsc]

theorem Valid.grows (hvalid : a.Valid sc) (h : a.Grows b) : b.Valid sc := by
  intro id hid
  rw [h.chain hvalid.lt] at hid
  exact Nat.lt_of_lt_of_le (hvalid id hid) h.size

theorem chain_add_self (s : Scopes) (f : Frame) :
    (s.add f).2.chain (s.add f).1 = s.frames.size :: f.ancestors := by
  rw [chain]
  show s.frames.size :: ((s.add f).2.frame s.frames.size).ancestors = _
  rw [frame_add_self]

theorem valid_add (h : ∀ id ∈ f.ancestors, id < s.frames.size) : (s.add f).2.Valid (s.add f).1 := by
  intro id hid
  rw [size_add]
  rw [chain_add_self] at hid
  rcases List.mem_cons.mp hid with rfl | hid
  · exact Nat.lt_succ_self _
  · exact Nat.lt_succ_of_lt (h id hid)

/-- the classes around a scope, innermost first -/
def classes (s : Scopes) (sc : ScopeId) : List ClassId :=
  (s.chain sc).filterMap fun id => (s.frame id).cls

theorem innermostClass_eq (s : Scopes) (sc : ScopeId) : s.innermostClass sc = (s.classes sc).head? := by
  rw [innermostClass, levels, classes, List.head?_filterMap, List.findSome?_map]
  rfl

theorem Grows.filterMap_cls (h : a.Grows b) {ids : List ScopeId} (hids : ∀ id ∈ ids, id < a.frames.size) :
    (ids.filterMap fun id => (b.frame id).cls) = ids.filterMap fun id => (a.frame id).cls := by
  induction ids with
  | nil => rfl
  | cons id ids ih =>
    rw [List.filterMap_cons, List.filterMap_cons, h.cls id (hids id List.mem_cons_self),
      ih fun x hx => hids x (List.mem_cons_of_mem _ hx)]

theorem Grows.classes (h : a.Grows b) (hvalid : a.Valid sc) : b.classes sc = a.classes sc := by
  rw [Scopes.classes, h.chain hvalid.lt, h.filterMap_cls hvalid, Scopes.classes]

/-- the scope is valid, and these are the classes around it -/
structure Stands (s : Scopes) (sc : ScopeId) (around : List ClassId) : Prop where
  valid : s.Valid sc
  classes : s.classes sc = around

theorem Stands.innermostClass (h : s.Stands sc around) : s.innermostClass sc = around.head? := by
  rw [innermostClass_eq, h.classes]

theorem Stands.grows (h : a.Stands sc around) (hgrows : a.Grows b) : b.Stands sc around :=
  ⟨h.valid.grows hgrows, (hgrows.classes h.valid).trans h.classes⟩

theorem stands_add (h : ∀ id ∈ f.ancestors, id < s.frames.size) : (s.add f).2.Stands (s.add f).1
      (f.cls.toList ++ f.ancestors.filterMap fun id => (s.frame id).cls) := by
  refine ⟨valid_add h, ?_⟩
  rw [Scopes.classes, chain_add_self, List.filterMap_cons, frame_add_self,
    (grows_add s f).filterMap_cls h]
  cases f.cls <;> rfl

theorem Stands.child (h : s.Stands sc around)
    (label : String) : (s.child sc label).2.Stands (s.child sc label).1 around := by
  have hnew := stands_add (s := s) (f := { label, ancestors := s.chain sc }) h.valid
  rw [← h.classes]
  exact hnew

theorem Stands.enterClass (h : s.Stands sc around) (c : ClassId) (shown : String) :
    (s.enterClass sc c shown).2.Stands (s.enterClass sc c shown).1 (c :: around) := by
  have hnew := stands_add (s := s)
    (f := { label := s!"class_{shown}", cls := some c, ancestors := s.chain sc }) h.valid
  rw [← h.classes]
  exact hnew

/-! ## levels opened inside others -/

def Closed (s : Scopes) : Prop :=
  ∀ id < s.frames.size, s.Valid id

/-- all levels stand where levels stood before -/
structure Opens (a b : Scopes) : Prop where
  grows : a.Grows b
  closed : b.Closed
  around : ∀ id < b.frames.size, ∃ old < a.frames.size, b.classes id = a.classes old

theorem Opens.refl (h : a.Closed) : a.Opens a :=
  ⟨.refl a, h, fun id hid => ⟨id, hid, rfl⟩⟩

theorem Opens.trans {c : Scopes} (h : a.Opens b) (h' : b.Opens c) : a.Opens c := by
  refine ⟨h.grows.trans h'.grows, h'.closed, fun id hid => ?_⟩
  obtain ⟨between, hbetween, heq⟩ := h'.around id hid
  obtain ⟨old, hold, heq'⟩ := h.around between hbetween
  exact ⟨old, hold, heq.trans heq'⟩

theorem Grows.opens (h : a.Grows b) (hclosed : a.Closed)
    (hsize : b.frames.size = a.frames.size) : a.Opens b := by
  refine ⟨h, fun id hid => ?_, fun id hid => ?_⟩
  · exact (hclosed id (hsize ▸ hid)).grows h
  · exact ⟨id, hsize ▸ hid, h.classes (hclosed id (hsize ▸ hid))⟩

theorem opens_add {old : ScopeId} (hclosed : s.Closed)
    (hvalid : ∀ id ∈ f.ancestors, id < s.frames.size) (hold : old < s.frames.size)
    (haround : (f.cls.toList ++ f.ancestors.filterMap fun id => (s.frame id).cls) = s.classes old) :
    s.Opens (s.add f).2 := by
  have hnew := stands_add hvalid
  have hgrows := grows_add s f
  have hcases : ∀ id < (s.add f).2.frames.size, id < s.frames.size ∨ id = (s.add f).1 := by
    intro id hid
    rw [size_add] at hid
    exact Nat.lt_succ_iff_lt_or_eq.mp hid
  refine ⟨hgrows, fun id hid => ?_, fun id hid => ?_⟩
  · rcases hcases id hid with hlt | rfl
    · exact (hclosed id hlt).grows hgrows
    · exact hnew.valid
  · rcases hcases id hid with hlt | rfl
    · exact ⟨id, hlt, hgrows.classes (hclosed id hlt)⟩
    · exact ⟨old, hold, hnew.classes.trans haround⟩

theorem opens_child (hclosed : s.Closed) (hparent : parent < s.frames.size) (label : String) :
    s.Opens (s.child parent label).2 :=
  opens_add hclosed (hclosed parent hparent) hparent rfl

theorem size_declareAll (s : Scopes) (id : ScopeId) (names : List String) :
    (s.declareAll id names).frames.size = s.frames.size := by
  induction names generalizing s with
  | nil => rfl
  | cons name names ih => exact (ih (s.declare id name)).trans (size_modifyFrame s id _)

theorem opens_declareAll (hclosed : s.Closed) (id : ScopeId) (names : List String) :
    s.Opens (s.declareAll id names) :=
  (grows_declareAll s id names).opens hclosed (size_declareAll s id names)

theorem opens_declareNodes {s' : Scopes} {source : SourceUnit} {names : List Node}
    (hclosed : s.Closed) (h : s.declareNodes source id names = .ok s') : s.Opens s' := by
  obtain ⟨texts, _, hdone⟩ := Run.of_except_bind h
  cases hdone
  exact opens_declareAll hclosed id texts

end Scopes

/-! ## levels that stay -/

namespace Scopes

structure Keeps (base s : Scopes) : Prop where
  size : base.frames.size ≤ s.frames.size
  frame : ∀ id < base.frames.size, s.frame id = base.frame id

theorem Keeps.refl (base : Scopes) : base.Keeps base :=
  ⟨Nat.le_refl _, fun _ _ => rfl⟩

section
variable {base s s' : Scopes} {sc : ScopeId} {source : SourceUnit} {names : List Node}

theorem Keeps.grows (h : base.Keeps s) : base.Grows s :=
  ⟨h.size, fun id hid => by rw [h.frame id hid], fun id hid => by rw [h.frame id hid]⟩

variable (hkeeps : base.Keeps s)
include hkeeps

theorem Keeps.add (f : Frame) : base.Keeps (s.add f).2 where
  size := Nat.le_trans hkeeps.size (grows_add s f).size
  frame id hid := (frame_add_of_lt s f (Nat.lt_of_lt_of_le hid hkeeps.size)).trans (hkeeps.frame id hid)

theorem Keeps.child (parent : ScopeId) (label : String) : base.Keeps (s.child parent label).2 :=
  hkeeps.add _

theorem Keeps.modifyFrame (hsc : base.frames.size ≤ sc) (change : Frame → Frame) :
    base.Keeps (s.modifyFrame sc change) where
  size := size_modifyFrame s sc change ▸ hkeeps.size
  frame x hx := (frame_modifyFrame_of_ne s change (Nat.ne_of_lt (Nat.lt_of_lt_of_le hx hsc))).trans
    (hkeeps.frame x hx)

theorem Keeps.declareAll (hsc : base.frames.size ≤ sc) (names : List String) :
    base.Keeps (s.declareAll sc names) := by
  induction names generalizing s with
  | nil => exact hkeeps
  | cons name names ih => exact ih (hkeeps.modifyFrame hsc _)

theorem Keeps.declareNodes (hsc : base.frames.size ≤ sc) (h : s.declareNodes source sc names = .ok s') :
    base.Keeps s' := by
  obtain ⟨texts, _, hdone⟩ := Run.of_except_bind h
  cases hdone
  exact hkeeps.declareAll hsc texts

theorem Keeps.childDeclaring (h : s.childDeclaring source parent label names = .ok (sc, s')) :
    sc = s.frames.size ∧ base.Keeps s' := by
  obtain ⟨filled, hnames, hdone⟩ := Run.of_except_bind h
  cases hdone
  exact ⟨rfl, (hkeeps.child parent label).declareNodes hkeeps.size hnames⟩

theorem Keeps.locate {here inner : ScopeId} (h : place.locate source here inner s = .ok (sc, s'))
    (free : ScopeId → Prop) (hnew : ∀ id, base.frames.size ≤ id → free id) :
    base.Keeps s' ∧ (place.Free free here inner → free sc) := by
  induction place generalizing sc s' with
  | here =>
    cases h
    exact ⟨hkeeps, id⟩
  | inner =>
    cases h
    exact ⟨hkeeps, id⟩
  | fresh below label names ih =>
    obtain ⟨⟨parent, s₁⟩, hbelow, hopen⟩ := Run.of_except_bind h
    obtain ⟨rfl, hopened⟩ := (ih hbelow).1.childDeclaring hopen
    exact ⟨hopened, fun _ => hnew _ (ih hbelow).1.size⟩

theorem Keeps.snapshotChain (ids : List ScopeId) : base.Keeps (s.snapshotChain ids).2 := by
  induction ids with
  | nil => exact hkeeps
  | cons id outer ih =>
    rw [Scopes.snapshotChain]
    split
    · exact hkeeps
    · exact ih.add _

theorem Keeps.snapshot (sc : ScopeId) : base.Keeps (s.snapshot sc).2 :=
  hkeeps.snapshotChain (s.chain sc)

end

end Scopes

/-- what opening a scope does: the store grows, if it was closed then by levels that stand where others stood, and the new
scope stands in the given classes -/
structure Opening (s s' : Scopes) (sc : ScopeId) (around : List ClassId) : Prop where
  grows : s.Grows s'
  opens : s.Closed → s.Opens s'
  stands : s'.Stands sc around

namespace Scopes

theorem Stands.opening {s : Scopes} {sc : ScopeId} {around : List ClassId} (h : s.Stands sc around) :
    Opening s s sc around :=
  ⟨.refl s, .refl, h⟩

theorem Stands.childDeclaring {s s' : Scopes} {source : SourceUnit} {sc : ScopeId} {names : List Node}
    {around : List ClassId} (h : s.Stands parent around)
    (hopen : s.childDeclaring source parent label names = .ok (sc, s')) : Opening s s' sc around := by
  obtain ⟨filled, hnames, hdone⟩ := Run.of_except_bind hopen
  cases hdone
  have hfilled := grows_declareNodes hnames
  refine ⟨(grows_child s parent label).trans hfilled, fun hclosed => ?_, (h.child label).grows hfilled⟩
  have hopens := opens_child hclosed h.valid.lt label
  exact hopens.trans (opens_declareNodes hopens.closed hnames)

end Scopes

/-- the scope of a place stands in the same classes as the scopes it is found from -/
theorem Place.opening_locate {source : SourceUnit} {here inner sc : ScopeId} {s s' : Scopes}
    {around : List ClassId} (hhere : s.Stands here around) (hinner : s.Stands inner around)
    (h : place.locate source here inner s = .ok (sc, s')) : Opening s s' sc around := by
  induction place generalizing sc s' with
  | here =>
    cases h
    exact hhere.opening
  | inner =>
    cases h
    exact hinner.opening
  | fresh below label names ih =>
    obtain ⟨⟨parent, s₁⟩, hbelow, hopen⟩ := Run.of_except_bind h
    have hfirst := ih hbelow
    have hsecond := hfirst.stands.childDeclaring hopen
    exact ⟨hfirst.grows.trans hsecond.grows, fun hclosed =>
      (hfirst.opens hclosed).trans (hsecond.opens (hfirst.opens hclosed).closed), hsecond.stands⟩

/-- what is left to do is to be done in the given classes -/
def Action.Stands (s : Scopes) (around : List ClassId) : Action → Prop
  | .none => True
  | .visit _ sc | .caseConstant _ sc | .localClass _ sc | .anonymousClass _ _ sc => s.Stands sc around

theorem Step.opening_perform {source : SourceUnit} {here inner : ScopeId} {s : Scopes}
    {around : List ClassId} (hhere : s.Stands here around) (hinner : s.Stands inner around)
    {step : Step} {done : Progress} (h : step.perform source here inner s = .ok done) :
    Opening s done.scopes done.inner around ∧ done.action.Stands done.scopes around := by
  cases Step.performs h with
  | enter hopen => exact ⟨hhere.childDeclaring hopen, trivial⟩
  | declare hplace hfilled =>
    have hfirst := Place.opening_locate hhere hinner hplace
    have hgrows := hfirst.grows.trans (Scopes.grows_declareNodes hfilled)
    refine ⟨⟨hgrows, fun hclosed => ?_, hinner.grows hgrows⟩, trivial⟩
    have hopens := hfirst.opens hclosed
    exact hopens.trans (Scopes.opens_declareNodes hopens.closed hfilled)
  | visit hplace =>
    have hfirst := Place.opening_locate hhere hinner hplace
    exact ⟨⟨hfirst.grows, hfirst.opens, hinner.grows hfirst.grows⟩, hfirst.stands⟩
  | caseConstant | localClass | anonymousClass => exact ⟨hinner.opening, hhere⟩

namespace Scopes

/-! ## snapshots -/

theorem snapshotChain_spec {s : Scopes} (hclosed : s.Closed) {ids : List ScopeId} {old : ScopeId}
    (hold : old < s.frames.size) (hids : ∀ id ∈ ids, id < s.frames.size)
    (haround : (ids.filterMap fun id => (s.frame id).cls) = s.classes old) :
    s.Opens (s.snapshotChain ids).2 ∧
      (∀ id ∈ (s.snapshotChain ids).1, id < (s.snapshotChain ids).2.frames.size) ∧
      ((s.snapshotChain ids).1.filterMap fun id => ((s.snapshotChain ids).2.frame id).cls) =
        s.classes old := by
  induction ids with
  | nil => exact ⟨.refl hclosed, hids, haround⟩
  | cons id outer ih =>
    rw [snapshotChain]
    split
    · exact ⟨.refl hclosed, hids, haround⟩
    · rename_i hblock
      have hcls : (s.frame id).cls = none := by
        cases hcls : (s.frame id).cls with
        | none => rfl
        | some c => exact absurd (by simp [Frame.isClassScope, hcls]) hblock
      rw [List.filterMap_cons, hcls] at haround
      obtain ⟨hopens, hvalid, hcopied⟩ := ih (fun x hx => hids x (List.mem_cons_of_mem _ hx)) haround
      have hsame : (s.snapshotChain outer).2.classes old = s.classes old :=
        hopens.grows.classes (hclosed old hold)
      have hadd := opens_add (f := { s.frame id with ancestors := (s.snapshotChain outer).1 })
        hopens.closed hvalid (Nat.lt_of_lt_of_le hold hopens.grows.size)
        (by rw [hsame, ← hcopied, hcls]; rfl)
      have hnew := stands_add (s := (s.snapshotChain outer).2)
        (f := { s.frame id with ancestors := (s.snapshotChain outer).1 }) hvalid
      refine ⟨hopens.trans hadd, ?_, ?_⟩
      · intro x hx
        rcases List.mem_cons.mp hx with rfl | hx
        · exact hnew.valid.lt
        · exact Nat.lt_of_lt_of_le (hvalid x hx) hadd.grows.size
      · have hchain := chain_add_self (s.snapshotChain outer).2
          { s.frame id with ancestors := (s.snapshotChain outer).1 }
        have hclasses := hnew.classes
        rw [Scopes.classes, hchain] at hclasses
        refine hclasses.trans ?_
        rw [hcls, ← hcopied]
        rfl

theorem chain_snapshot (s : Scopes) (sc : ScopeId) :
    (s.snapshot sc).2.chain (s.snapshot sc).1 = (s.snapshotChain (s.chain sc)).1 := by
  show (s.snapshotChain (s.chain sc)).2.chain ((s.snapshotChain (s.chain sc)).1.headD sc) = _
  rw [chain.eq_def s sc, snapshotChain]
  split
  · rfl
  · exact chain_add_self _ _

theorem Stands.snapshot {s : Scopes} {sc : ScopeId} {around : List ClassId} (hclosed : s.Closed)
    (h : s.Stands sc around) :
    s.Opens (s.snapshot sc).2 ∧ (s.snapshot sc).2.Stands (s.snapshot sc).1 around := by
  obtain ⟨hopens, hvalid, hclasses⟩ := snapshotChain_spec hclosed h.valid.lt h.valid rfl
  refine ⟨hopens, fun id hid => hvalid id (s.chain_snapshot sc ▸ hid), ?_⟩
  rw [Scopes.classes, chain_snapshot, ← h.classes]
  exact hclasses

end Scopes

/-! ## walks keep what opening and filling levels keep -/

structure Kept (free : ScopeId → Prop) (P : Scopes → Prop) : Prop where
  child : ∀ s sc label, P s → free (s.child sc label).1 ∧ P (s.child sc label).2
  declare : ∀ s sc name, free sc → P s → P (s.declare sc name)
  declareType : ∀ s sc name c, free sc → P s → P (s.declareType sc name c)

theorem Scopes.kept_keeps (base : Scopes) : Kept (fun id => base.frames.size ≤ id) base.Keeps where
  child _ sc label h := ⟨h.size, h.child sc label⟩
  declare _ _ _ hfree h := h.modifyFrame hfree _
  declareType _ _ _ _ hfree h := h.modifyFrame hfree _

namespace Lockstep

variable {t : Table} {free : ScopeId → Prop} {P : Scopes → Prop} {enters : Subject.CodeRegion → Prop}

/-- a walk beside itself, with a property of its store, until one of the two escapes -/
def beside (kept : Kept free P) (admission : Admission t free enters) (escape : Halt → WalkState → Prop) :
    Lockstep t where
  scope := id
  free := free
  store a b := b = a ∧ P a
  escape := escape
  levels _ h := by rw [h.1]; rfl
  child sc label h := by
    obtain ⟨rfl, hP⟩ := h
    exact ⟨rfl, (kept.child _ sc label hP).1, rfl, (kept.child _ sc label hP).2⟩
  declare name hfree h := by
    obtain ⟨rfl, hP⟩ := h
    exact ⟨rfl, kept.declare _ _ name hfree hP⟩
  declareType name c hfree h := by
    obtain ⟨rfl, hP⟩ := h
    exact ⟨rfl, kept.declareType _ _ name c hfree hP⟩
  classScope _ := rfl
  enters := enters
  admission := admission

def keeping (kept : Kept free P) (admission : Admission t free enters) : Lockstep t :=
  beside kept admission fun _ _ => False

theorem keeping_final {kept : Kept free P} {admission : Admission t free enters} {x : Walk Unit}
    (h : (keeping kept admission).Runs x x) {st : WalkState} (hst : P st.scopes) :
    (∀ a st', x st = .ok a st' → P st'.scopes) ∧ (∀ e st', x st = .error e st' → P st'.scopes) := by
  have hrun := h st st ⟨⟨rfl, hst⟩, rfl, rfl⟩
  constructor
  · intro a st' hx
    rw [hx] at hrun
    exact hrun.2.1.2
  · intro e st' hx
    rw [hx] at hrun
    rcases hrun with hrun | hescape
    · exact hrun.2.1.2
    · exact hescape.elim

end Lockstep

theorem Kept.classify {t : Table} {free : ScopeId → Prop} {P : Scopes → Prop} (kept : Kept free P)
    (admission : Admission t free (Fits free)) {s s' : Scopes} {m : MethodId} {v : Verdict} (hs : P s)
    (h : t.classify s m = .ok (v, s')) : P s' := by
  unfold Table.classify at h
  split at h
  · cases h
    exact hs
  · rename_i body _
    have hruns := Lockstep.runs_walkMethod (s := { table := t, method := m })
      (K := .keeping kept admission) body fun _ hfree => .inl hfree
    have hfinal := Lockstep.keeping_final hruns (show P { scopes := s : WalkState }.scopes from hs)
    cases hwalk : Subject.walkMethod { table := t, method := m } body { scopes := s } with
    | ok a st =>
      rw [EStateM.run, hwalk] at h
      cases h
      exact hfinal.1 _ _ hwalk
    | error halt st =>
      rw [EStateM.run, hwalk] at h
      cases halt with
      | access finding =>
        cases h
        exact hfinal.2 _ _ hwalk
      | fault fault => cases h

/-- kept by every way to open and fill levels that plans have -/
structure Scopes.PlanInvariant (P : Scopes → Prop) : Prop where
  child : ∀ s sc label, P s → P (s.child sc label).2
  declare : ∀ s sc name, P s → P (s.declare sc name)

/-- kept by every way that walks have; they name local types as well -/
structure Scopes.Invariant (P : Scopes → Prop) : Prop extends Scopes.PlanInvariant P where
  declareType : ∀ s sc name c, P s → P (s.declareType sc name c)

theorem Scopes.invariant_grows (base : Scopes) : Scopes.Invariant base.Grows where
  child s sc label h := h.trans (s.grows_child sc label)
  declare s sc name h := h.trans (s.grows_declare sc name)
  declareType s sc name c h := h.trans (s.grows_declareType sc name c)

section
variable {P : Scopes → Prop} {source : SourceUnit}

theorem Scopes.PlanInvariant.declareAll (hP : Scopes.PlanInvariant P) {s : Scopes} (hs : P s) (id : ScopeId)
    (names : List String) : P (s.declareAll id names) := by
  induction names generalizing s with
  | nil => exact hs
  | cons name names ih => exact ih (hP.declare s id name hs)

theorem Scopes.PlanInvariant.childDeclaring (hP : Scopes.PlanInvariant P) {s s' : Scopes} {sc : ScopeId}
    {names : List Node} (hs : P s) (hopen : s.childDeclaring source parent label names = .ok (sc, s')) :
    P s' := by
  obtain ⟨filled, hnames, hdone⟩ := Run.of_except_bind hopen
  obtain ⟨texts, _, hfilled⟩ := Run.of_except_bind hnames
  cases hdone
  cases hfilled
  exact hP.declareAll (hP.child s parent label hs) _ texts

theorem Scopes.PlanInvariant.locate (hP : Scopes.PlanInvariant P) {s s' : Scopes} {here inner sc : ScopeId}
    (hs : P s) (h : place.locate source here inner s = .ok (sc, s')) : P s' := by
  induction place generalizing sc s' with
  | here =>
    cases h
    exact hs
  | inner =>
    cases h
    exact hs
  | fresh below label names ih =>
    obtain ⟨⟨parent, s₁⟩, hbelow, hopen⟩ := Run.of_except_bind h
    exact hP.childDeclaring (ih hbelow) hopen

theorem Scopes.PlanInvariant.perform (hP : Scopes.PlanInvariant P) {s : Scopes} {here inner : ScopeId}
    {step : Step} {done : Progress} (hs : P s) (h : step.perform source here inner s = .ok done) :
    P done.scopes := by
  cases Step.performs h with
  | enter hopen => exact hP.childDeclaring hs hopen
  | declare hplace hfilled =>
    obtain ⟨texts, _, htexts⟩ := Run.of_except_bind hfilled
    cases htexts
    exact hP.declareAll (hP.locate hs hplace) _ texts
  | visit hplace => exact hP.locate hs hplace
  | caseConstant | localClass | anonymousClass => exact hs

theorem Scopes.Invariant.kept (hP : Scopes.Invariant P) : Kept (fun _ => True) P where
  child s sc label h := ⟨trivial, hP.child s sc label h⟩
  declare s sc name _ h := hP.declare s sc name h
  declareType s sc name c _ h := hP.declareType s sc name c h

end

theorem admission_all (t : Table) : Admission t (fun _ => True) (Fits fun _ => True) :=
  admission_fits fun _ _ _ _ _ _ _ _ => .inl trivial

/-! ## walks that are the same for every way on -/

/-- the walk is in lockstep with itself if the ways on are, in every lockstep that leaves scopes as they are -/
def Uniform (t : Table) (walk : Subject.Onward → Walk Unit) : Prop :=
  ∀ K : Lockstep t, (∀ sc, K.scope sc = sc) → (∀ sc, K.free sc) → (∀ region, K.enters region) →
    ∀ go go', K.Onwards go go' → K.Runs (walk go) (walk go')

theorem Uniform.grows {s : Subject} {walk : Subject.Onward → Walk Unit}
    (h : Uniform s.table walk) {depth : Nat} {st st' : WalkState} {a : Unit}
    (hwalk : walk (s.walkRegion depth) st = .ok a st') : st.scopes.Grows st'.scopes := by
  have hruns := h (.keeping st.scopes.invariant_grows.kept (admission_all _)) (fun _ => rfl) (fun _ => trivial)
    (fits_of_free fun _ => trivial) _ _ (Lockstep.onwards_walkRegion (s := s) depth)
  exact (Lockstep.keeping_final hruns (.refl _)).1 a st' hwalk

section
variable (s : Subject)

theorem uniform_go (region : Subject.CodeRegion) : Uniform s.table fun go => go region := by
  intro K hscope _ henters go go' hgo
  cases region with
  | code n sc =>
    have h := hgo.code n sc (henters _)
    rwa [hscope] at h
  | body c => exact hgo.body c (henters _)

theorem uniform_visitCode (n : Node) (sc : ScopeId) : Uniform s.table fun go => s.visitCode go n sc := by
  intro K hscope _ henters go go' hgo
  have h := Lockstep.runs_visitCode hgo (henters (.code n sc))
  rwa [hscope] at h

theorem uniform_visitBody (c : ClassId) : Uniform s.table fun go => s.visitBody go c :=
  fun _ _ _ henters _ _ hgo => Lockstep.runs_visitBody hgo (henters _)

end

end StaticPromotion
