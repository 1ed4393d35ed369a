import StaticPromotion.Proofs.Inheriting
import StaticPromotion.Proofs.Placement

/-!
# Chains of scopes mirror the nesting of classes

A class that code declares is entered below a copy of the block levels around the declaration. The copy ends at the nearest class
level, which is shared, so the way outwards from a class goes through the very levels of the classes around it, and
comes out at the outermost level.

* `Scopes.Branches a b`         `b` is `a` with more levels, none of them that of a class, on chains that end as chains of `a` do;
* `Scopes.branches_locate`, `Scopes.branches_perform`, `Scopes.branches_snapshot`    what code does to a store;
* `Table.Anchored`              each class level is the one of its class, and each chain ends at the outermost level. The pass over
                                a unit keeps this: `Indexes.anchored`;
* `Table.Ascends t c path`      `path` is `c`, the class around it, and so on up to a class that stands in none;
* `Scopes.Derived`              a scope opened inside another, over any number of levels, while the store grows;
* `Table.chain_mirrors_nesting` the class levels on the chain of a class are those of its path.
-/

namespace StaticPromotion

namespace Scopes

/-! ## levels opened in code -/

structure Branches (a b : Scopes) : Prop where
  grows : a.Grows b
  block : ∀ id, a.frames.size ≤ id → (b.frame id).cls = none
  ends : ∀ id, a.frames.size ≤ id → id < b.frames.size →
    ∃ old < a.frames.size, (b.chain id).getLast? = (a.chain old).getLast?

variable {a b c s s' : Scopes} {source : SourceUnit} {here inner sc : ScopeId} {old : ScopeId}

theorem Branches.refl (a : Scopes) : a.Branches a := by
  refine ⟨.refl a, fun id hid => ?_, fun id hid hlt => absurd hlt (Nat.not_lt.mpr hid)⟩
  rw [frame_of_le a hid]
  rfl

theorem Branches.trans (h : a.Branches b) (h' : b.Branches c) : a.Branches c := by
  refine ⟨h.grows.trans h'.grows, fun id hid => ?_, fun id hid hlt => ?_⟩
  · rcases Nat.lt_or_ge id b.frames.size with hold | hnew
    · rw [h'.grows.cls id hold]
      exact h.block id hid
    · exact h'.block id hnew
  · rcases Nat.lt_or_ge id b.frames.size with hold | hnew
    · rw [h'.grows.chain hold]
      exact h.ends id hid hold
    · obtain ⟨between, hbetween, hlast⟩ := h'.ends id hnew hlt
      rw [hlast]
      rcases Nat.lt_or_ge between a.frames.size with hfirst | hsecond
      · exact ⟨between, hfirst, by rw [h.grows.chain hfirst]⟩
      · exact h.ends between hsecond hbetween

theorem Grows.branches (h : a.Grows b) (hsize : b.frames.size = a.frames.size) : a.Branches b := by
  refine ⟨h, fun id hid => ?_, fun id hid hlt => ?_⟩
  · rw [frame_of_le b (hsize ▸ hid)]
    rfl
  · rw [hsize] at hlt
    exact absurd hlt (Nat.not_lt.mpr hid)

/-- a chain is not empty, so a row that ends as it does is not empty either -/
theorem getLast?_cons_of_chain {ids : List ScopeId} (h : ids.getLast? = (s.chain old).getLast?)
    (id : ScopeId) : (id :: ids).getLast? = (s.chain old).getLast? := by
  cases ids with
  | nil => cases List.getLast?_eq_none_iff.mp h.symm
  | cons x ids => rwa [List.getLast?_cons_cons]

/-- one more level without a class, on a chain that ends as another one does -/
theorem branches_add {f : Frame} (hcls : f.cls = none) (hold : old < s.frames.size)
    (hlast : f.ancestors.getLast? = (s.chain old).getLast?) : s.Branches (s.add f).2 := by
  refine ⟨grows_add s f, fun id hid => ?_, fun id hid hlt => ⟨old, hold, ?_⟩⟩
  · rcases Nat.lt_or_ge s.frames.size id with hbehind | hat
    · rw [frame_of_le _ (by rw [size_add]; exact hbehind)]
      rfl
    · obtain rfl : id = s.frames.size := Nat.le_antisymm hat hid
      rw [frame_add_self]
      exact hcls
  · rw [size_add] at hlt
    obtain rfl : id = s.frames.size := Nat.le_antisymm (Nat.lt_succ_iff.mp hlt) hid
    rw [show (s.add f).2.chain s.frames.size = _ from chain_add_self s f]
    exact getLast?_cons_of_chain hlast _

theorem branches_child (h : sc < s.frames.size) (label : String) : s.Branches (s.child sc label).2 :=
  branches_add rfl h rfl

theorem branches_declareAll (s : Scopes) (sc : ScopeId) (names : List String) :
    s.Branches (s.declareAll sc names) :=
  (s.grows_declareAll sc names).branches (size_declareAll s sc names)

theorem branches_declareNodes {names : List Node} (h : s.declareNodes source sc names = .ok s') :
    s.Branches s' := by
  obtain ⟨texts, _, hdone⟩ := Run.of_except_bind h
  cases hdone
  exact s.branches_declareAll sc texts

theorem branches_childDeclaring {label : String} {names : List Node} (hhere : here < s.frames.size)
    (h : s.childDeclaring source here label names = .ok (sc, s')) :
    s.Branches s' ∧ sc < s'.frames.size := by
  obtain ⟨filled, hnames, hdone⟩ := Run.of_except_bind h
  cases hdone
  have hfilled := branches_declareNodes hnames
  refine ⟨(branches_child hhere label).trans hfilled, Nat.lt_of_lt_of_le ?_ hfilled.grows.size⟩
  exact Nat.lt_of_lt_of_eq (Nat.lt_succ_self _) (size_add s _).symm

theorem branches_locate {place : Place} (hhere : here < s.frames.size) (hinner : inner < s.frames.size)
    (h : place.locate source here inner s = .ok (sc, s')) : s.Branches s' ∧ sc < s'.frames.size := by
  induction place generalizing sc s' with
  | here =>
    cases h
    exact ⟨.refl s, hhere⟩
  | inner =>
    cases h
    exact ⟨.refl s, hinner⟩
  | fresh below label names ih =>
    obtain ⟨⟨parent, s₁⟩, hbelow, hopen⟩ := Run.of_except_bind h
    obtain ⟨hfirst, hparent⟩ := ih hbelow
    obtain ⟨hsecond, hsc⟩ := branches_childDeclaring hparent hopen
    exact ⟨hfirst.trans hsecond, hsc⟩

theorem branches_perform {step : Step} {p : Progress} (hhere : here < s.frames.size)
    (hinner : inner < s.frames.size) (h : step.perform source here inner s = .ok p) :
    s.Branches p.scopes := by
  cases Step.performs h with
  | enter hopen => exact (branches_childDeclaring hhere hopen).1
  | declare hplace hfilled => exact (branches_locate hhere hinner hplace).1.trans (branches_declareNodes hfilled)
  | visit hplace => exact (branches_locate hhere hinner hplace).1
  | caseConstant | localClass | anonymousClass => exact .refl s

/-! ## copies -/

/-- the copy of a chain ends where the chain ends: a class level on it is not copied, nor what is around it -/
theorem branches_snapshotChain {ids : List ScopeId} (hclass : ∃ id ∈ ids, (s.frame id).cls ≠ none)
    (hold : old < s.frames.size) (hlast : ids.getLast? = (s.chain old).getLast?) :
    s.Branches (s.snapshotChain ids).2 ∧
      (s.snapshotChain ids).1.getLast? = (s.chain old).getLast? := by
  induction ids with
  | nil =>
    obtain ⟨id, hid, _⟩ := hclass
    exact absurd hid List.not_mem_nil
  | cons id outer ih =>
    rw [snapshotChain]
    split
    · exact ⟨.refl s, hlast⟩
    · rename_i hblock
      have hcls : (s.frame id).cls = none := by
        cases hcls : (s.frame id).cls with
        | none => rfl
        | some k => exact absurd (by simp [Frame.isClassScope, hcls]) hblock
      obtain ⟨x, hx, hxcls⟩ := hclass
      have houter : x ∈ outer := by
        rcases List.mem_cons.mp hx with rfl | hx
        · exact absurd hcls hxcls
        · exact hx
      rw [List.getLast?_cons_of_ne_nil (List.ne_nil_of_mem houter)] at hlast
      obtain ⟨hcopied, hend⟩ := ih ⟨x, houter, hxcls⟩ hlast
      have hchain := hcopied.grows.chain hold
      have hadd := branches_add (s := (s.snapshotChain outer).2)
        (f := { s.frame id with ancestors := (s.snapshotChain outer).1 }) hcls
        (Nat.lt_of_lt_of_le hold hcopied.grows.size) (by rw [hchain]; exact hend)
      exact ⟨hcopied.trans hadd, getLast?_cons_of_chain hend _⟩

theorem branches_snapshot (hvalid : sc < s.frames.size) (hclass : s.classes sc ≠ []) :
    s.Branches (s.snapshot sc).2 :=
  (branches_snapshotChain (exists_class_of_classes hclass) hvalid rfl).1

end Scopes

namespace Table

variable {t t' : Table}

/-! ## class levels and the ends of chains -/

structure Anchored (t : Table) : Prop where
  registered : ∀ id k, (t.scopes.frame id).cls = some k → k < t.classes.size ∧ (t.decl k).scope = id
  ends : ∀ id < t.scopes.frames.size, (t.scopes.chain id).getLast? = some Scopes.rootId

theorem anchored_start (source : SourceUnit) : Anchored { source } := by
  refine ⟨fun id k hcls => ?_, fun id hid => ?_⟩
  · rcases Nat.lt_or_ge id Scopes.initial.frames.size with hlt | hge
    · obtain rfl : id = 0 := Nat.lt_one_iff.mp hlt
      cases hcls
    · rw [show (Table.scopes { source }).frame id = default from Scopes.frame_of_le _ hge] at hcls
      cases hcls
  · obtain rfl : id = 0 := Nat.lt_one_iff.mp hid
    rfl

theorem Anchored.branches (h : t.Anchored) {s : Scopes} (hs : t.scopes.Branches s) :
    Anchored { t with scopes := s } := by
  refine ⟨fun id k hcls => ?_, fun id hid => ?_⟩
  · rcases Nat.lt_or_ge id t.scopes.frames.size with hold | hnew
    · exact h.registered id k ((hs.grows.cls id hold).symm.trans hcls)
    · cases (hs.block id hnew).symm.trans hcls
  · rcases Nat.lt_or_ge id t.scopes.frames.size with hold | hnew
    · show (s.chain id).getLast? = _
      rw [hs.grows.chain hold]
      exact h.ends id hold
    · obtain ⟨old, hold, hlast⟩ := hs.ends id hnew hid
      exact hlast.trans (h.ends old hold)

theorem Anchored.congr (h : t.Anchored) (hscopes : t'.scopes = t.scopes)
    (hsize : t'.classes.size = t.classes.size) (hsettled : ∀ k, (t'.decl k).settled = (t.decl k).settled) :
    t'.Anchored := by
  refine ⟨fun id k hcls => ?_, fun id hid => ?_⟩
  · rw [hscopes] at hcls
    obtain ⟨hlt, hscope⟩ := h.registered id k hcls
    exact ⟨hsize ▸ hlt, (congrArg (·.2.2.2.2) (hsettled k)).trans hscope⟩
  · rw [hscopes] at hid ⊢
    exact h.ends id hid

theorem Anchored.amends (h : t.Anchored) (hamends : t.Amends t') : t'.Anchored :=
  h.congr hamends.scopes hamends.size hamends.settled

theorem Anchored.nameLocal (h : t.Anchored) (scope : ScopeId) (c : ClassId) :
    (t.nameLocal scope c).Anchored := by
  unfold Table.nameLocal
  split
  · exact h
  · exact h.branches ((t.scopes.grows_declareType scope _ c).branches (Scopes.size_modifyFrame _ _ _))

theorem Anchored.registers (h : t.Anchored) {outer : Option CodeOwner} {node : Node}
    {body : Option Node} {parent : ScopeId} (hparent : parent < t.scopes.frames.size)
    (hregisters : Registers outer node body parent t t') : t'.Anchored := by
  obtain ⟨shown, hscopes⟩ := hregisters.scopes
  have hnew : (t'.decl t.classes.size).scope = t.scopes.frames.size :=
    congrArg (·.2.2.2) hregisters.fixed
  refine ⟨fun id k hcls => ?_, fun id hid => ?_⟩
  · rw [hscopes] at hcls
    by_cases hid : id = t.scopes.frames.size
    · rw [hid, show (t.scopes.enterClass parent t.classes.size shown).2.frame _ = _ from
        Scopes.frame_add_self _ _] at hcls
      cases hcls
      exact ⟨hregisters.size ▸ Nat.lt_succ_self _, hnew.trans hid.symm⟩
    · rw [show (t.scopes.enterClass parent t.classes.size shown).2.frame id = _ from
        Scopes.frame_add_of_ne _ _ hid] at hcls
      obtain ⟨hlt, hscope⟩ := h.registered id k hcls
      refine ⟨hregisters.size ▸ Nat.lt_succ_of_lt hlt, ?_⟩
      exact (congrArg (·.2.2.2.2) (hregisters.settled k hlt)).trans hscope
  · rw [hscopes] at hid ⊢
    rcases Nat.lt_succ_iff_lt_or_eq.mp (Scopes.size_add _ _ ▸ hid) with hold | rfl
    · rw [show (t.scopes.enterClass parent t.classes.size shown).2.chain id = _ from
        (Scopes.grows_add _ _).chain hold]
      exact h.ends id hold
    · rw [show (t.scopes.enterClass parent t.classes.size shown).2.chain t.scopes.frames.size = _ from
        Scopes.chain_add_self _ _]
      exact (Scopes.getLast?_cons_of_chain rfl _).trans (h.ends parent hparent)

end Table

open Table

/-- code stands in some class, so the copies that it takes end at a class level -/
theorem Table.Anchored.snapshot {t : Table} (h : t.Anchored) {owner : CodeOwner} {here : ScopeId}
    (hhere : t.Houses owner here) : Anchored { t with scopes := (t.scopes.snapshot here).2 } := by
  refine h.branches (Scopes.branches_snapshot hhere.stands.valid.lt ?_)
  rw [hhere.stands.classes]
  exact List.cons_ne_nil _ _

theorem Indexes.anchored {t t₁ t₂ : Table} {duty : Duty} (h : Indexes duty t₁ t₂)
    (hran : t.Ran duty t₁ t₂) (hanchored : t₁.Anchored) : t₂.Anchored := by
  induction h with
  | code steps ih => exact ih (hran.of_code steps) hanchored
  | done | noMembers | finished => exact hanchored
  | quiet perform _ others ih =>
    obtain ⟨_, hhere, hinner⟩ := hran.fits
    exact ih (hran.of_quiet perform others) (hanchored.branches
      (Scopes.branches_perform hhere.stands.valid.lt hinner.stands.valid.lt perform))
  | visit located first others ihfirst ihothers =>
    obtain ⟨_, hhere, hinner⟩ := hran.fits
    have hlocated := (Scopes.branches_locate hhere.stands.valid.lt hinner.stands.valid.lt located).1
    obtain ⟨hfirst, hothers⟩ := hran.of_visit located first others
    exact ihothers hothers (ihfirst hfirst (hanchored.branches hlocated))
  | localClass first others _ ihfirst ihothers =>
    obtain ⟨_, hhere, _⟩ := hran.fits
    obtain ⟨hfirst, _, hothers⟩ := hran.of_captured first (spans_nameLocal · _ _) others
    exact ihothers hothers ((ihfirst hfirst (hanchored.snapshot hhere)).nameLocal _ _)
  | anonymousClass first others _ ihfirst ihothers =>
    obtain ⟨_, hhere, _⟩ := hran.fits
    obtain ⟨hfirst, _, hothers⟩ := hran.of_captured first (.refl _) others
    exact ihothers hothers (ihfirst hfirst (hanchored.snapshot hhere))
  | cls registers members ih =>
    obtain ⟨_, _, hparent⟩ := hran.fits
    exact ih (hran.of_cls registers members) (hanchored.registers hparent.valid.lt registers)
  | members first others ihfirst ihothers =>
    obtain ⟨hfirst, hothers⟩ := hran.of_members first others
    exact ihothers hothers (ihfirst hfirst hanchored)
  | idle _ amends | noCode amends => exact hanchored.amends amends
  | fields _ codes ih | constant _ _ codes ih => exact ih (hran.of_fields codes) hanchored
  | method _ _ adds opened _ code ih =>
    have hadded := hanchored.congr adds.scopes adds.size adds.settled
    obtain ⟨hlevel, _, hcode⟩ := hran.of_method adds opened code
    have hopened := (Scopes.branches_childDeclaring hlevel.stands.valid.lt opened).1
    exact ih hcode (hadded.branches (hopened.trans (Scopes.branches_declareAll _ _ _)))
  | constantBody _ _ codes nested _ ihcodes ihnested =>
    obtain ⟨hcodes, hnested⟩ := hran.of_constantBody codes nested
    exact ihnested hnested (ihcodes hcodes hanchored)
  | block _ code ih => exact ih (hran.of_block code) hanchored
  | nested _ nested amends ih => exact (ih (hran.of_nested nested amends) hanchored).amends amends
  | own amends first others ihfirst ihothers =>
    have hamended := hanchored.amends amends.toAmends
    have hlevel := ClassLevel.stays hran.fits.stands amends.stays
    obtain ⟨hfirst, hothers⟩ := hran.of_own amends first others
    exact ihothers hothers (ihfirst hfirst (hamended.branches (Scopes.branches_child hlevel.stands.valid.lt _)))
  | aside amends others ih => exact ih (hran.of_aside amends others) (hanchored.amends amends)
  | topLevel _ first amends others ihfirst ihothers =>
    obtain ⟨hfirst, hothers⟩ := hran.of_topLevel first amends others
    exact ihothers hothers ((ihfirst hfirst hanchored).amends amends)

namespace Table

variable {t : Table} {source : SourceUnit}

theorem anchored_of_ofSource (built : ofSource source = .ok t) : t.Anchored := by
  obtain ⟨t₀, hran, hamends⟩ := ran_unit built
  exact (hran.indexes.anchored hran (anchored_start source)).amends hamends

/-! ## the way outwards -/

inductive Ascends (t : Table) : ClassId → List ClassId → Prop
  | top {c : ClassId} (outermost : (t.decl c).outer = none) : Ascends t c [c]
  | inner {c o : ClassId} {path : List ClassId} (inside : (t.decl c).outer = some o)
      (others : Ascends t o path) : Ascends t c (c :: path)

theorem ascends_outers (hpre : t.Preordered) (hsound : t.Sound) {c : ClassId}
    (hc : c < t.classes.size) : t.Ascends c (c :: (t.decl c).outers) := by
  induction c using Nat.strongRecOn with
  | ind c ih =>
    have houters := hpre.outers c hc
    cases houter : (t.decl c).outer with
    | none =>
      rw [houters, houter]
      exact .top houter
    | some o =>
      rw [houters, houter]
      have ho : o < c := hsound.outers_lt c hc o (List.mem_of_mem_head? houter)
      exact .inner houter (ih o ho (Nat.lt_trans ho hc))

theorem Ascends.unique {c : ClassId} {path path' : List ClassId} (h : t.Ascends c path)
    (h' : t.Ascends c path') : path' = path := by
  induction h generalizing path' with
  | top outermost =>
    cases h' with
    | top => rfl
    | inner inside => cases outermost.symm.trans inside
  | inner inside others ih =>
    cases h' with
    | top outermost => cases outermost.symm.trans inside
    | inner inside' others' =>
      cases inside.symm.trans inside'
      rw [ih others']

theorem Anchored.filter_chain (h : t.Anchored) (ids : List ScopeId) :
    (ids.filter fun id => (t.scopes.frame id).isClassScope) =
      (ids.filterMap fun id => (t.scopes.frame id).cls).map fun k => (t.decl k).scope := by
  induction ids with
  | nil => rfl
  | cons id ids ih =>
    cases hcls : (t.scopes.frame id).cls with
    | none =>
      rw [List.filter_cons_of_neg (by simp [Frame.isClassScope, hcls]), List.filterMap_cons, hcls, ih]
    | some k =>
      rw [List.filter_cons_of_pos (by simp [Frame.isClassScope, hcls]), List.filterMap_cons, hcls,
        List.map_cons, ih, (h.registered id k hcls).2]

end Table

inductive Scopes.Derived (base : Scopes) (sc : ScopeId) : Scopes → ScopeId → Prop
  | self {s : Scopes} (grows : base.Grows s) : Derived base sc s sc
  | child {s s' : Scopes} {parent : ScopeId} (inside : Derived base sc s parent) (label : String)
      (grows : (s.child parent label).2.Grows s') : Derived base sc s' (s.child parent label).1

theorem Scopes.Derived.stands {base s : Scopes} {sc derived : ScopeId} {around : List ClassId}
    (h : Derived base sc s derived) (hstands : base.Stands sc around) : s.Stands derived around := by
  induction h with
  | self grows => exact hstands.grows grows
  | child _ label grows ih => exact (ih.child label).grows grows

namespace Table

variable {t : Table} {source : SourceUnit}

theorem chain_mirrors_nesting (built : ofSource source = .ok t) {c : ClassId}
    (hc : c < t.classes.size) :
    (∃ path : List ClassId, t.Ascends c path ∧
      ((t.scopes.chain (t.decl c).scope).filter fun id => (t.scopes.frame id).isClassScope) =
        path.map (fun k => (t.decl k).scope) ∧
      ∀ k ∈ path, k < t.classes.size ∧ (t.scopes.frame (t.decl k).scope).cls = some k) ∧
      (t.scopes.chain (t.decl c).scope).getLast? = some Scopes.rootId ∧
      ∀ s sc, Scopes.Derived t.scopes (t.decl c).scope s sc → s.innermostClass sc = some c := by
  have hsound := sound_of_ofSource built
  have hlevel := classLevel_of_ofSource built hc
  have hanchored := anchored_of_ofSource built
  refine ⟨⟨c :: (t.decl c).outers, ascends_outers (preordered_of_ofSource built) hsound hc, ?_, ?_⟩,
    hanchored.ends _ hlevel.stands.valid.lt, fun s sc hderived => ?_⟩
  · rw [hanchored.filter_chain]
    exact congrArg _ hlevel.stands.classes
  · intro k hk
    have hlt : k < t.classes.size := by
      rcases List.mem_cons.mp hk with rfl | hk
      · exact hc
      · exact Nat.lt_trans (hsound.outers_lt c hc k hk) hc
    exact ⟨hlt, (classLevel_of_ofSource built hlt).own⟩
  · exact (hderived.stands hlevel.stands).innermostClass

/-- from the local class through the anonymous one around it, over copies of five block levels -/
theorem nestedLocal_chain_mirrors :
    ∃ t, ofSource nestedLocal = .ok t ∧ (t.scopes.chain (t.decl 2).scope).length = 9 ∧
      ((t.scopes.chain (t.decl 2).scope).filter fun id => (t.scopes.frame id).isClassScope) =
        [(t.decl 2).scope, (t.decl 1).scope, (t.decl 0).scope] ∧
      (t.scopes.chain (t.decl 2).scope).getLast? = some Scopes.rootId ∧
      (t.scopes.child (t.decl 2).scope).2.innermostClass (t.scopes.child (t.decl 2).scope).1 = some 2 := by
  have hcheck : (ofSource nestedLocal).toOption.any (fun t => t.classes.size == 3 &&
      (t.decl 2).outer == some 1 && (t.decl 1).outer == some 0 && (t.decl 0).outer == none &&
      (t.scopes.chain (t.decl 2).scope).length == 9) = true := by
    rw [nestedLocal, SourceUnit.ofText_eq]
    decide +kernel
  obtain ⟨t, built, hfacts⟩ := Run.of_toOption_any hcheck
  simp only [Bool.and_eq_true, beq_iff_eq] at hfacts
  obtain ⟨⟨⟨⟨hsize, houter⟩, houter'⟩, htop⟩, hlength⟩ := hfacts
  obtain ⟨⟨path, hpath, hlevels, _⟩, hlast, hinside⟩ := chain_mirrors_nesting built (hsize ▸ by decide : 2 < _)
  obtain rfl : path = [2, 1, 0] := (Ascends.inner houter (.inner houter' (.top htop))).unique hpath
  exact ⟨t, built, hlength, hlevels, hlast, hinside _ _ (.child (.self (.refl _)) _ (.refl _))⟩

end Table

end StaticPromotion
