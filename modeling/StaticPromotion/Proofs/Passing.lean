import StaticPromotion.Proofs.Indexed
import StaticPromotion.Proofs.Levels

/-!
# What the pass over a unit leaves behind

A later walk comes back to code that the pass has gone over. What the pass did there is told by the part of its derivation that
belongs to this code, and by what is left of it in the end: levels that were opened on the way are not filled any more once the
code is behind.

* `Table.Houses`, `Table.ClassLevel`    scopes in which code of an owner, and members of a class, may stand;
* `Duty.Fits t`          the scopes named in a duty are such scopes;
* `Table.Spans free`     the table goes on, and of the block levels only the free ones are filled. `Indexes.spans`: those that a
                         duty names;
* `Table.Ran t duty a b` on the way to the table `t`, doing `duty` took the table `a` to `b`. Its lemmas follow the rules;
* `Table.RanMembers`, `Table.RanMethod`    every class was entered, and the code of every method gone over.
-/

namespace StaticPromotion

variable {parent : ScopeId} {s : Scopes} {body : Option Node} {outer : Option CodeOwner} {label : String}
  {step : Step} {place : Place} {codes : List Node} {k : ClassId} {n : Node}

namespace Table

variable {t t' t'' t₁ t₂ : Table}

variable {c : ClassId} {owner : CodeOwner}

/-! ## scopes of duties -/

/-- code of `owner` may stand in the scope -/
structure Houses (t : Table) (owner : CodeOwner) (sc : ScopeId) : Prop where
  lt : owner.cls < t.classes.size
  stands : t.scopes.Stands sc (t.outersOf (some owner.cls))

/-- the class is there, and its level stands in it -/
structure ClassLevel (t : Table) (c : ClassId) : Prop where
  lt : c < t.classes.size
  stands : t.scopes.Stands (t.decl c).scope (t.outersOf (some c))
  own : (t.scopes.frame (t.decl c).scope).cls = some c

theorem Stays.fixed (h : t.Stays t') (hc : c < t.classes.size) : (t'.decl c).fixed = (t.decl c).fixed :=
  congrArg (·.2) (h.settled c hc)

theorem Stays.outersOf (h : t.Stays t') (hc : c < t.classes.size) :
    t'.outersOf (some c) = t.outersOf (some c) :=
  congrArg (c :: ·) (congrArg (·.2.1) (h.fixed hc))

theorem Stays.scope (h : t.Stays t') (hc : c < t.classes.size) : (t'.decl c).scope = (t.decl c).scope :=
  congrArg (·.2.2.2) (h.fixed hc)

theorem Houses.stays {sc : ScopeId} (h : t.Houses owner sc) (hstays : t.Stays t') : t'.Houses owner sc := by
  refine ⟨Nat.lt_of_lt_of_le h.lt hstays.size, ?_⟩
  rw [hstays.outersOf h.lt]
  exact h.stands.grows hstays.scopes

theorem Houses.move {sc : ScopeId} (h : t.Houses owner parent)
    (hopening : Opening t.scopes s sc (t.outersOf (some owner.cls))) :
    Houses { t with scopes := s } owner sc :=
  ⟨h.lt, hopening.stands⟩

theorem Houses.lt_of_fills {here inner : ScopeId} (hhere : t.Houses owner here)
    (hinner : t.Houses owner inner) (id : ScopeId) (hid : id = here ∨ id = inner) :
    id < t.scopes.frames.size := by
  rcases hid with rfl | rfl
  · exact hhere.stands.valid.lt
  · exact hinner.stands.valid.lt

theorem ClassLevel.stays (h : t.ClassLevel c) (hstays : t.Stays t') : t'.ClassLevel c := by
  refine ⟨Nat.lt_of_lt_of_le h.lt hstays.size, ?_, ?_⟩
  · rw [hstays.outersOf h.lt, hstays.scope h.lt]
    exact h.stands.grows hstays.scopes
  · rw [hstays.scope h.lt, hstays.scopes.cls _ h.stands.valid.lt]
    exact h.own

theorem ClassLevel.houses (h : t.ClassLevel c) (m : Option MethodId) : t.Houses ⟨c, m⟩ (t.decl c).scope :=
  ⟨h.lt, h.stands⟩

end Table

/-- a step that goes on to no other code -/
def Step.isQuiet : Step → Bool
  | .enter _ _ | .declare _ _ | .caseConstant _ => true
  | .visit _ _ | .localClass _ | .anonymousClass _ _ => false

namespace Duty

/-- the scopes are there, and stand in the classes that they are meant for -/
def Stands (t : Table) : Duty → Prop
  | .code owner _ sc => t.Houses owner sc
  | .steps owner here inner _ => t.Houses owner here ∧ t.Houses owner inner
  | .cls outer _ _ parent => (∀ o, outer = some o → o.cls < t.classes.size) ∧
      t.scopes.Stands parent (t.outersOf (outer.map (·.cls)))
  | .members c _ | .member c _ | .own c _ => t.ClassLevel c
  | .unit _ => t.scopes.Stands Scopes.rootId []

structure Fits (t : Table) (duty : Duty) : Prop where
  closed : t.scopes.Closed
  stands : duty.Stands t

/-- the scopes that may be filled -/
def fills : Duty → ScopeId → Prop
  | .code _ _ sc => (· = sc)
  | .steps _ here inner _ => fun id => id = here ∨ id = inner
  | .cls _ _ _ _ | .members _ _ | .member _ _ | .own _ _ | .unit _ => fun _ => False

end Duty

namespace Table

variable {t t' t'' t₁ t₂ : Table}

/-! ## what a table goes through -/

structure Spans (free : ScopeId → Prop) (t t' : Table) : Prop where
  stays : t.Stays t'
  closed : t'.scopes.Closed
  spares : Scopes.Spares free t.scopes t'.scopes

section
variable {free free' : ScopeId → Prop}

theorem Spans.refl (free : ScopeId → Prop) (hclosed : t.scopes.Closed) : Spans free t t :=
  ⟨.refl t, hclosed, .refl _ _⟩

theorem Spans.trans (h : Spans free t t') (h' : Spans free' t' t'')
    (hfree : ∀ id < t.scopes.frames.size, free' id → free id) : Spans free t t'' :=
  ⟨h.stays.trans h'.stays, h'.closed, h.spares.trans h'.spares hfree⟩

theorem Spans.andThen (h : Spans free t t') (h' : Spans free t' t'') : Spans free t t'' :=
  h.trans h' fun _ _ hid => hid

theorem Spans.mono (h : Spans free t t') (hfree : ∀ id < t.scopes.frames.size,
    (t.scopes.frame id).cls = none → free id → free' id) : Spans free' t t' :=
  ⟨h.stays, h.closed, h.spares.mono hfree⟩

theorem Spans.of_none (h : Spans (fun _ => False) t t') : Spans free t t' :=
  h.mono fun _ _ _ hid => hid.elim

theorem spans_setScopes (hclosed : s.Closed) (hspares : Scopes.Spares free t.scopes s) :
    Spans free t { t with scopes := s } :=
  ⟨stays_setScopes hspares.grows, hclosed, hspares⟩

theorem Spans.of_same (hclosed : t.scopes.Closed) (hstays : t.Stays t') (hsame : t'.scopes = t.scopes) :
    Spans free t t' :=
  ⟨hstays, hsame ▸ hclosed, hsame ▸ .refl _ _⟩

theorem Amends.spans (h : t.Amends t') (hclosed : t.scopes.Closed) : Spans free t t' :=
  .of_same hclosed h.stays h.scopes

theorem spans_nameLocal (hclosed : t.scopes.Closed) (scope : ScopeId) (c : ClassId) :
    Spans (· = scope) t (t.nameLocal scope c) := by
  unfold nameLocal
  split
  · exact .refl _ hclosed
  · refine spans_setScopes ?_ (t.scopes.spares_declareType scope _ c)
    exact ((t.scopes.grows_declareType scope _ c).opens hclosed (Scopes.size_modifyFrame _ _ _)).closed

end

theorem Houses.snapshot {owner : CodeOwner} {sc : ScopeId} (h : t.Houses owner sc)
    (hclosed : t.scopes.Closed) (node : Node) (body : Option Node) :
    Spans (fun _ => False) t { t with scopes := (t.scopes.snapshot sc).2 } ∧
      Duty.Fits { t with scopes := (t.scopes.snapshot sc).2 }
        (.cls (some owner) node body (t.scopes.snapshot sc).1) := by
  obtain ⟨hopens, hstands⟩ := h.stands.snapshot hclosed
  refine ⟨spans_setScopes hopens.closed (t.scopes.spares_snapshot sc), hopens.closed, ?_, hstands⟩
  intro o ho
  cases ho
  exact h.lt

theorem Registers.spans {node : Node} (h : Registers outer node body parent t t')
    (hfits : Duty.Fits t (.cls outer node body parent)) :
    Spans (fun _ => False) t t' ∧ t'.ClassLevel t.classes.size := by
  obtain ⟨hclosed, _, hstands⟩ := hfits
  obtain ⟨shown, hscopes⟩ := h.scopes
  have hnew := hstands.enterClass t.classes.size shown
  have hclosed' : t'.scopes.Closed := by
    rw [hscopes]
    intro id hid
    rcases Nat.lt_succ_iff_lt_or_eq.mp (Scopes.size_add _ _ ▸ hid) with hlt | rfl
    · exact (hclosed id hlt).grows (Scopes.grows_add _ _)
    · exact hnew.valid
  have houters : (t'.decl t.classes.size).outers = t.outersOf (outer.map (·.cls)) :=
    congrArg (·.2.1) h.fixed
  have hscope : (t'.decl t.classes.size).scope = t.scopes.frames.size := congrArg (·.2.2.2) h.fixed
  refine ⟨⟨h.stays, hclosed', ?_⟩, h.size ▸ Nat.lt_succ_self _, ?_, ?_⟩
  · rw [hscopes]
    exact ((Scopes.Keeps.refl _).add _).spares
  · rw [Table.outersOf, houters, hscope, hscopes]
    exact hnew
  · rw [hscope, hscopes]
    exact congrArg Frame.cls (Scopes.frame_add_self _ _)

theorem ClassLevel.openMethod {c : ClassId} {scope : ScopeId} {names : List Node} (h : t.ClassLevel c)
    (hclosed : t.scopes.Closed)
    (hopened : t.scopes.childDeclaring t.source (t.decl c).scope label names = .ok (scope, s))
    (m : Option MethodId) (components : List String) :
    Spans (fun _ => False) t { t with scopes := s.declareAll scope components } ∧
      Houses { t with scopes := s.declareAll scope components } ⟨c, m⟩ scope ∧
      scope = t.scopes.frames.size := by
  have hopening := h.stands.childDeclaring hopened
  have hgrows := s.grows_declareAll scope components
  obtain ⟨hnew, hspares⟩ := Scopes.spares_childDeclaring hopened
  refine ⟨spans_setScopes ?_ (hspares.trans (s.spares_declareAll scope components) ?_),
    ⟨h.lt, hopening.stands.grows hgrows⟩, hnew⟩
  · exact (hgrows.opens (hopening.opens hclosed).closed (Scopes.size_declareAll _ _ _)).closed
  · exact fun id hid heq => Nat.ne_of_lt hid (heq.trans hnew)

theorem ClassLevel.fits_cls {c : ClassId} (h : t.ClassLevel c) (hclosed : t.scopes.Closed) (node : Node)
    (body : Option Node) : Duty.Fits t (.cls (some ⟨c, none⟩) node body (t.decl c).scope) := by
  refine ⟨hclosed, fun o ho => ?_, h.stands⟩
  cases ho
  exact h.lt

theorem ClassLevel.openOwn {c : ClassId} (h : t.ClassLevel c) (hclosed : t.scopes.Closed) (label : String) :
    Spans (fun _ => False) t { t with scopes := (t.scopes.child (t.decl c).scope label).2 } ∧
      Houses { t with scopes := (t.scopes.child (t.decl c).scope label).2 } ⟨c, none⟩
        (t.scopes.child (t.decl c).scope label).1 :=
  ⟨spans_setScopes (Scopes.opens_child hclosed h.stands.valid.lt label).closed
    (t.scopes.spares_child _ label), h.lt, h.stands.child label⟩

end Table

open Table

variable {t t' t₁ t₂ : Table}

/-! ## what a duty fills -/

theorem Table.Spans.of_classLevel {c : ClassId} (hlevel : t.ClassLevel c)
    (h : Spans (· = (t.decl c).scope) t t') : Spans (fun _ => False) t t' := by
  refine h.mono fun id _ hblock heq => ?_
  rw [heq, hlevel.own] at hblock
  cases hblock

theorem Indexes.spans {duty : Duty} (h : Indexes duty t t') (hfits : duty.Fits t) :
    Spans duty.fills t t' := by
  induction h with
  | code _ ih =>
    exact (ih ⟨hfits.closed, hfits.stands, hfits.stands⟩).mono fun _ _ _ hid => hid.elim id id
  | done => exact .refl _ hfits.closed
  | quiet perform idle others ih =>
    obtain ⟨hclosed, hhere, hinner⟩ := hfits
    obtain ⟨hopening, _⟩ := Step.opening_perform hhere.stands hinner.stands perform
    obtain ⟨hsame, hspares⟩ := Scopes.spares_perform perform
    have hfirst := spans_setScopes (hopening.opens hclosed).closed hspares
    refine hfirst.trans (ih ⟨hfirst.closed, hhere.stays hfirst.stays, hinner.move hopening⟩) ?_
    rintro id hid (hid' | hid')
    · exact .inl hid'
    · rcases hsame with heq | hnew
      · exact .inr (hid'.trans heq)
      · exact absurd hid (Nat.not_lt.mpr (hid' ▸ hnew))
  | visit located first others ihfirst ihothers =>
    obtain ⟨hclosed, hhere, hinner⟩ := hfits
    have hopening := Place.opening_locate hhere.stands hinner.stands located
    obtain ⟨hsame, hspares⟩ := Scopes.spares_locate located
    have hopened := spans_setScopes (hopening.opens hclosed).closed hspares
    have hfirst := ihfirst ⟨hopened.closed, hhere.move hopening⟩
    have hstays := hopened.stays.trans hfirst.stays
    have hothers := ihothers ⟨hfirst.closed, hhere.stays hstays, hinner.stays hstays⟩
    refine (hopened.of_none.trans hfirst ?_).andThen hothers
    rintro id hid rfl
    rcases hsame with heq | heq | hnew
    · exact .inl heq
    · exact .inr heq
    · exact absurd hid (Nat.not_lt.mpr hnew)
  | @localClass owner here inner declaration rest t t₁ t' first others _ ihfirst ihothers =>
    obtain ⟨hclosed, hhere, hinner⟩ := hfits
    obtain ⟨hcopied, hcls⟩ := hhere.snapshot hclosed _ _
    have hfirst := ihfirst hcls
    have hnamed := spans_nameLocal hfirst.closed here t.classes.size
    have hstays := (hcopied.stays.trans hfirst.stays).trans hnamed.stays
    have hothers := ihothers ⟨hnamed.closed, hhere.stays hstays, hinner.stays hstays⟩
    have hbefore := hcopied.andThen hfirst
    exact (hbefore.of_none.trans hnamed fun _ _ hid => .inl hid).andThen hothers
  | anonymousClass first others _ ihfirst ihothers =>
    obtain ⟨hclosed, hhere, hinner⟩ := hfits
    obtain ⟨hcopied, hcls⟩ := hhere.snapshot hclosed _ _
    have hfirst := ihfirst hcls
    have hstays := hcopied.stays.trans hfirst.stays
    have hothers := ihothers ⟨hfirst.closed, hhere.stays hstays, hinner.stays hstays⟩
    exact (hcopied.andThen hfirst).of_none.andThen hothers
  | cls registers members ih =>
    obtain ⟨hspans, hlevel⟩ := registers.spans hfits
    exact hspans.andThen (ih ⟨hspans.closed, hlevel⟩)
  | noMembers => exact .refl _ hfits.closed
  | members first others ihfirst ihothers =>
    have hfirst := ihfirst ⟨hfits.closed, hfits.stands⟩
    exact hfirst.andThen (ihothers ⟨hfirst.closed, hfits.stands.stays hfirst.stays⟩)
  | idle _ amends => exact amends.spans hfits.closed
  | fields _ _ ih | constant _ _ _ ih => exact ih ⟨hfits.closed, hfits.stands⟩
  | method _ _ adds opened _ _ ih =>
    have hadded : Spans (fun _ => False) _ _ := .of_same hfits.closed adds.stays adds.scopes
    have hlevel := hfits.stands.stays hadded.stays
    obtain ⟨hopened, hhouses, hnew⟩ := hlevel.openMethod hadded.closed opened (some _) _
    refine (hadded.andThen hopened).trans (ih ⟨hopened.closed, hhouses⟩) ?_
    rintro id hid rfl
    rw [hnew, adds.scopes] at hid
    exact Nat.lt_irrefl _ hid
  | constantBody _ _ _ _ _ ihcodes ihnested =>
    have hcodes := ihcodes ⟨hfits.closed, hfits.stands⟩
    have hlevel := hfits.stands.stays hcodes.stays
    exact hcodes.andThen (ihnested (hlevel.fits_cls hcodes.closed _ _))
  | block _ _ ih =>
    exact (ih ⟨hfits.closed, hfits.stands.houses none⟩).of_classLevel hfits.stands
  | nested _ _ amends ih =>
    have hnested := ih (ClassLevel.fits_cls hfits.stands hfits.closed _ _)
    exact hnested.andThen (amends.spans hnested.closed)
  | noCode amends => exact amends.spans hfits.closed
  | @own c code rest label t t₁ t₂ t' amends _ _ ihfirst ihothers =>
    have hamends : Spans (fun _ => False) t t₁ := amends.spans hfits.closed
    have hlevel := hfits.stands.stays hamends.stays
    obtain ⟨hopened, hhouses⟩ := hlevel.openOwn hamends.closed label
    have hbefore := hamends.andThen hopened
    have hfirst : Spans (fun _ => False) t t₂ := by
      refine hbefore.trans (ihfirst ⟨hopened.closed, hhouses⟩) ?_
      rintro id hid rfl
      rw [← amends.scopes] at hid
      exact Nat.lt_irrefl _ hid
    have hothers := ihothers ⟨hfirst.closed, hfits.stands.stays hfirst.stays⟩
    exact hfirst.andThen hothers
  | finished => exact .refl _ hfits.closed
  | aside amends _ ih =>
    have hamends : Spans (fun _ => False) _ _ := amends.spans hfits.closed
    exact hamends.andThen (ih ⟨hamends.closed, hfits.stands.grows hamends.stays.scopes⟩)
  | topLevel _ _ amends _ ihfirst ihothers =>
    have hfirst := ihfirst ⟨hfits.closed, fun o ho => (by cases ho), hfits.stands⟩
    have hamends : Spans (fun _ => False) _ _ := amends.spans hfirst.closed
    have hbefore := hfirst.andThen hamends
    have hstands := hfits.stands.grows hbefore.stays.scopes
    exact hbefore.andThen (ihothers ⟨hbefore.closed, hstands⟩)

/-! ## parts of the pass -/

/-- levels that were opened on the way stayed as they were in the end of it -/
structure Table.Ran (t : Table) (duty : Duty) (t₁ t₂ : Table) : Prop where
  indexes : Indexes duty t₁ t₂
  fits : duty.Fits t₁
  rest : Spans (· < t₁.scopes.frames.size) t₂ t

namespace Table

variable {duty : Duty} {b a : Table} {node : Node}

theorem Ran.spans (h : t.Ran duty t₁ t₂) : Spans duty.fills t₁ t₂ :=
  h.indexes.spans h.fits

theorem Ran.stays (h : t.Ran duty t₁ t₂) : t₁.Stays t :=
  h.spans.stays.trans h.rest.stays

/-- what comes after a part of a duty, if only levels are filled that were there before the duty -/
theorem Ran.onward {free : ScopeId → Prop} (h : t.Ran duty t₁ t₂) (hafter : Spans free b t₂)
    (hfree : ∀ id, free id → id < t₁.scopes.frames.size) : Spans (· < t₁.scopes.frames.size) b t :=
  (hafter.mono fun id _ _ hid => hfree id hid).andThen h.rest

theorem Ran.part {sub : Duty} (hstays : t₁.Stays a) (hsub : Indexes sub a b) (hfits : sub.Fits a)
    (hafter : Spans (· < t₁.scopes.frames.size) b t) : t.Ran sub a b :=
  ⟨hsub, hfits, hafter.mono fun _ _ _ hid => Nat.lt_of_lt_of_le hid hstays.scopes.size⟩

theorem Ran.last {sub : Duty} (h : t.Ran duty t₁ t₂) (hstays : t₁.Stays a)
    (hsub : Indexes sub a t₂) (hfits : sub.Fits a) : t.Ran sub a t₂ :=
  ⟨hsub, hfits, h.rest.mono fun _ _ _ hid => Nat.lt_of_lt_of_le hid hstays.scopes.size⟩

/-! ## parts of code -/

section
variable {owner : CodeOwner} {here inner sc : ScopeId} {rest : List Step}

theorem Ran.of_code {node : Node} (h : t.Ran (.code owner node sc) t₁ t₂)
    (steps : Indexes (.steps owner sc sc node.plan) t₁ t₂) : t.Ran (.steps owner sc sc node.plan) t₁ t₂ :=
  h.last (.refl t₁) steps ⟨h.fits.closed, h.fits.stands, h.fits.stands⟩

theorem Ran.of_quiet {p : Progress} (h : t.Ran (.steps owner here inner (step :: rest)) t₁ t₂)
    (perform : step.perform t₁.source here inner t₁.scopes = .ok p)
    (others : Indexes (.steps owner here p.inner rest) { t₁ with scopes := p.scopes } t₂) :
    t.Ran (.steps owner here p.inner rest) { t₁ with scopes := p.scopes } t₂ := by
  obtain ⟨hclosed, hhere, hinner⟩ := h.fits
  obtain ⟨hopening, _⟩ := Step.opening_perform hhere.stands hinner.stands perform
  have hstays := stays_setScopes hopening.grows
  exact h.last hstays others
    ⟨(hopening.opens hclosed).closed, hhere.stays hstays, hinner.move hopening⟩

theorem Ran.of_visit {part : Node} (h : t.Ran (.steps owner here inner (.visit part place :: rest)) t₁ t₂)
    (located : place.locate t₁.source here inner t₁.scopes = .ok (sc, s))
    (first : Indexes (.code owner part sc) { t₁ with scopes := s } t')
    (others : Indexes (.steps owner here inner rest) t' t₂) :
    t.Ran (.code owner part sc) { t₁ with scopes := s } t' ∧
      t.Ran (.steps owner here inner rest) t' t₂ := by
  obtain ⟨hclosed, hhere, hinner⟩ := h.fits
  have hopening := Place.opening_locate hhere.stands hinner.stands located
  have hopened := stays_setScopes hopening.grows
  have hfits : Duty.Fits { t₁ with scopes := s } (.code owner part sc) :=
    ⟨(hopening.opens hclosed).closed, hhere.move hopening⟩
  have hfirst := first.spans hfits
  have hstays := hopened.trans hfirst.stays
  have hfits' : Duty.Fits t' (.steps owner here inner rest) :=
    ⟨hfirst.closed, hhere.stays hstays, hinner.stays hstays⟩
  have hafter := h.onward (others.spans hfits') (hhere.lt_of_fills hinner)
  exact ⟨Ran.part hopened first hfits hafter, h.last hstays others hfits'⟩

/-- a class in code, and the rest of the plan after its name, if it has one, is known here -/
theorem Ran.of_captured {node : Node} (h : t.Ran (.steps owner here inner (step :: rest)) t₁ t₂)
    (first : Indexes (.cls (some owner) node body (t₁.scopes.snapshot here).1)
      { t₁ with scopes := (t₁.scopes.snapshot here).2 } t')
    (hnamed : t'.scopes.Closed → Spans (· = here) t' a) (others : Indexes (.steps owner here inner rest) a t₂) :
    t.Ran (.cls (some owner) node body (t₁.scopes.snapshot here).1)
        { t₁ with scopes := (t₁.scopes.snapshot here).2 } t' ∧
      Spans (· < t₁.scopes.frames.size) t' t ∧ t.Ran (.steps owner here inner rest) a t₂ := by
  obtain ⟨hclosed, hhere, hinner⟩ := h.fits
  obtain ⟨hcopied, hfits⟩ := hhere.snapshot hclosed node body
  have hfirst := first.spans hfits
  have hnamed := hnamed hfirst.closed
  have hstays := (hcopied.stays.trans hfirst.stays).trans hnamed.stays
  have hfits' : Duty.Fits a (.steps owner here inner rest) :=
    ⟨hnamed.closed, hhere.stays hstays, hinner.stays hstays⟩
  have hothers := (hnamed.mono fun _ _ _ hid => .inl hid).andThen (others.spans hfits')
  have hafter := h.onward hothers (hhere.lt_of_fills hinner)
  exact ⟨Ran.part hcopied.stays first hfits hafter, hafter, h.last hstays others hfits'⟩

end

/-! ## parts of classes -/

theorem Ran.of_cls (h : t.Ran (.cls outer node body parent) t₁ t₂)
    (registers : Registers outer node body parent t₁ t')
    (members : Indexes (.members t₁.classes.size ((body.map memberNodes).getD [])) t' t₂) :
    t.Ran (.members t₁.classes.size ((body.map memberNodes).getD [])) t' t₂ := by
  obtain ⟨hspans, hlevel⟩ := registers.spans h.fits
  exact h.last hspans.stays members ⟨hspans.closed, hlevel⟩

section
variable {c : ClassId} {member : Node}

theorem Ran.of_members {rest : List Node} (h : t.Ran (.members c (member :: rest)) t₁ t₂)
    (first : Indexes (.member c member) t₁ t') (others : Indexes (.members c rest) t' t₂) :
    t.Ran (.member c member) t₁ t' ∧ t.Ran (.members c rest) t' t₂ := by
  obtain ⟨hclosed, hlevel⟩ := h.fits
  have hfirst := first.spans ⟨hclosed, hlevel⟩
  have hfits' : Duty.Fits t' (.members c rest) := ⟨hfirst.closed, ClassLevel.stays hlevel hfirst.stays⟩
  exact ⟨Ran.part (.refl t₁) first ⟨hclosed, hlevel⟩ (h.onward (others.spans hfits') fun _ hid => hid.elim),
    h.last hfirst.stays others hfits'⟩

theorem Ran.of_fields (h : t.Ran (.member c member) t₁ t₂) (own : Indexes (.own c codes) t₁ t₂) :
    t.Ran (.own c codes) t₁ t₂ :=
  h.last (.refl t₁) own ⟨h.fits.closed, h.fits.stands⟩

theorem Ran.of_method {body : Node} {id : MethodId} {scope : ScopeId}
    {components : List String} (h : t.Ran (.member c member) t₁ t₂)
    (adds : Adds c member id t₁ t')
    (opened : t'.scopes.childDeclaring t'.source (t'.decl c).scope label member.methodNames
      = .ok (scope, s))
    (code : Indexes (.code ⟨c, some id⟩ body scope)
      { t' with scopes := s.declareAll scope components } t₂) :
    t'.ClassLevel c ∧ t'.scopes.Closed ∧ t.Ran (.code ⟨c, some id⟩ body scope)
      { t' with scopes := s.declareAll scope components } t₂ := by
  obtain ⟨hclosed, hlevel⟩ := h.fits
  have hadded : Spans (fun _ => False) t₁ t' := .of_same hclosed adds.stays adds.scopes
  have hlevel' := ClassLevel.stays hlevel hadded.stays
  obtain ⟨hopened, hhouses, _⟩ := hlevel'.openMethod hadded.closed opened (some id) components
  exact ⟨hlevel', hadded.closed,
    h.last (hadded.stays.trans hopened.stays) code ⟨hopened.closed, hhouses⟩⟩

theorem Ran.of_constantBody {body : Node} (h : t.Ran (.member c member) t₁ t₂)
    (own : Indexes (.own c codes) t₁ t')
    (nested : Indexes (.cls (some ⟨c, none⟩) member (some body) (t'.decl c).scope) t' t₂) :
    t.Ran (.own c codes) t₁ t' ∧
      t.Ran (.cls (some ⟨c, none⟩) member (some body) (t'.decl c).scope) t' t₂ := by
  obtain ⟨hclosed, hlevel⟩ := h.fits
  have hown := own.spans ⟨hclosed, hlevel⟩
  have hfits' := (ClassLevel.stays hlevel hown.stays).fits_cls hown.closed member (some body)
  exact ⟨Ran.part (.refl t₁) own ⟨hclosed, hlevel⟩ (h.onward (nested.spans hfits') fun _ hid => hid.elim),
    h.last hown.stays nested hfits'⟩

theorem Ran.of_block (h : t.Ran (.member c member) t₁ t₂)
    (code : Indexes (.code ⟨c, none⟩ member (t₁.decl c).scope) t₁ t₂) :
    t.Ran (.code ⟨c, none⟩ member (t₁.decl c).scope) t₁ t₂ :=
  h.last (.refl t₁) code ⟨h.fits.closed, ClassLevel.houses h.fits.stands none⟩

theorem Ran.of_nested (h : t.Ran (.member c member) t₁ t₂)
    (nested : Indexes (.cls (some ⟨c, none⟩) member (member.child? "body") (t₁.decl c).scope) t₁ t')
    (amends : t'.Amends t₂) :
    t.Ran (.cls (some ⟨c, none⟩) member (member.child? "body") (t₁.decl c).scope) t₁ t' := by
  obtain ⟨hclosed, hlevel⟩ := h.fits
  have hfits := ClassLevel.fits_cls hlevel hclosed member (member.child? "body")
  have hafter : Spans (fun _ => False) t' t₂ := amends.spans (nested.spans hfits).closed
  exact Ran.part (.refl t₁) nested hfits (h.onward hafter fun _ hid => hid.elim)

theorem Ran.of_own {code : Node} {rest : List Node} {a b : Table}
    (h : t.Ran (.own c (code :: rest)) t₁ t₂) (amends : t₁.Amends a)
    (first : Indexes (.code ⟨c, none⟩ code (a.scopes.child (a.decl c).scope label).1)
      { a with scopes := (a.scopes.child (a.decl c).scope label).2 } b)
    (others : Indexes (.own c rest) b t₂) :
    t.Ran (.code ⟨c, none⟩ code (a.scopes.child (a.decl c).scope label).1)
        { a with scopes := (a.scopes.child (a.decl c).scope label).2 } b ∧
      t.Ran (.own c rest) b t₂ := by
  obtain ⟨hclosed, hlevel⟩ := h.fits
  have hamends : Spans (fun _ => False) t₁ a := amends.spans hclosed
  obtain ⟨hopened, hhouses⟩ := (ClassLevel.stays hlevel hamends.stays).openOwn hamends.closed label
  have hfirst := first.spans ⟨hopened.closed, hhouses⟩
  have hbefore := hamends.stays.trans hopened.stays
  have hstays := hbefore.trans hfirst.stays
  have hfits' : Duty.Fits b (.own c rest) := ⟨hfirst.closed, ClassLevel.stays hlevel hstays⟩
  exact ⟨Ran.part hbefore first ⟨hopened.closed, hhouses⟩ (h.onward (others.spans hfits') fun _ hid => hid.elim),
    h.last hstays others hfits'⟩

end

/-! ## parts of a unit -/

theorem Ran.of_aside {rest : List Node} (h : t.Ran (.unit (node :: rest)) t₁ t₂)
    (amends : t₁.Amends t') (others : Indexes (.unit rest) t' t₂) : t.Ran (.unit rest) t' t₂ := by
  have hamends : Spans (fun _ => False) t₁ t' := amends.spans h.fits.closed
  exact h.last hamends.stays others
    ⟨hamends.closed, Scopes.Stands.grows h.fits.stands hamends.stays.scopes⟩

theorem Ran.of_topLevel {rest : List Node} (h : t.Ran (.unit (node :: rest)) t₁ t₂)
    (first : Indexes (.cls none node (node.child? "body") Scopes.rootId) t₁ a) (amends : a.Amends b)
    (others : Indexes (.unit rest) b t₂) :
    t.Ran (.cls none node (node.child? "body") Scopes.rootId) t₁ a ∧ t.Ran (.unit rest) b t₂ := by
  obtain ⟨hclosed, hstands⟩ := h.fits
  have hfits : Duty.Fits t₁ (.cls none node (node.child? "body") Scopes.rootId) := by
    refine ⟨hclosed, fun o ho => ?_, hstands⟩
    cases ho
  have hfirst := first.spans hfits
  have hamends : Spans (fun _ => False) a b := amends.spans hfirst.closed
  have hstays := hfirst.stays.trans hamends.stays
  have hfits' : Duty.Fits b (.unit rest) :=
    ⟨hamends.closed, Scopes.Stands.grows hstands hstays.scopes⟩
  have hafter := hamends.andThen (others.spans hfits')
  exact ⟨Ran.part (.refl t₁) first hfits (h.onward hafter fun _ hid => hid.elim),
    h.last hstays others hfits'⟩

/-! ## all of a unit is gone over -/

/-- the members of a class were gone over -/
def RanMembers (t : Table) (k : ClassId) : Prop :=
  ∃ a b, t.Ran (.members k (((t.decl k).body.map memberNodes).getD [])) a b

/-- the code of a method was gone over, in a scope with its parameters -/
def RanMethod (t : Table) (m : MethodId) (n : Node) : Prop :=
  ∃ (body : Node) (scope : ScopeId) (label : String) (components : List String) (s : Scopes)
    (a b : Table), n.child? "body" = some body ∧
    (n.kind = "method_declaration" → components = []) ∧ a.ClassLevel m.owner ∧ a.scopes.Closed ∧
    a.scopes.childDeclaring a.source (a.decl m.owner).scope label n.methodNames = .ok (scope, s) ∧
    t.Ran (.code ⟨m.owner, some m⟩ body scope) { a with scopes := s.declareAll scope components } b

structure Traverses (t t₁ t₂ : Table) : Prop where
  members : ∀ k, t₁.classes.size ≤ k → k < t₂.classes.size → t.RanMembers k
  methods : ∀ m n, t₂.coded m = some n → t₁.coded m = some n ∨ t.RanMethod m n

theorem Traverses.of_same (hsize : t₂.classes.size = t₁.classes.size)
    (hcoded : ∀ m, t₂.coded m = t₁.coded m) : Traverses t t₁ t₂ where
  members _ hold hnew := absurd (hsize ▸ hnew) (Nat.not_lt.mpr hold)
  methods m _ hm := .inl ((hcoded m).symm.trans hm)

theorem Amends.traverses (h : t₁.Amends t₂) : Traverses t t₁ t₂ :=
  .of_same h.size h.coded

theorem traverses_setScopes (s : Scopes) : Traverses t t₁ { t₁ with scopes := s } :=
  .of_same rfl fun _ => rfl

theorem traverses_nameLocal (scope : ScopeId) (c : ClassId) : Traverses t t₁ (t₁.nameLocal scope c) := by
  unfold nameLocal
  split
  · exact .of_same rfl fun _ => rfl
  · exact traverses_setScopes _

theorem Traverses.trans (h : Traverses t t₁ t') (h' : Traverses t t' t₂) : Traverses t t₁ t₂ where
  members k hold hnew := (Nat.lt_or_ge k t'.classes.size).elim (h.members k hold) fun hle => h'.members k hle hnew
  methods m n hm := (h'.methods m n hm).elim (h.methods m n) .inr

theorem Ran.traverses_cls (registers : Registers outer node body parent t₁ t')
    (h : t.Ran (.members t₁.classes.size ((body.map memberNodes).getD [])) t' t₂) : Traverses t t₁ t' where
  members k hold hnew := by
    have hlt := hnew
    rw [registers.size] at hlt
    obtain rfl : k = t₁.classes.size := Nat.le_antisymm (Nat.lt_succ_iff.mp hlt) hold
    have hbody : (t.decl t₁.classes.size).body = body :=
      (congrArg (·.1) (h.stays.fixed hnew)).trans (congrArg (·.1) registers.fixed)
    rw [RanMembers, hbody]
    exact ⟨t', t₂, h⟩
  methods m _ hm := .inl ((registers.coded m).symm.trans hm)

end Table

theorem Indexes.traverses {duty : Duty} (h : Indexes duty t₁ t₂) (hran : t.Ran duty t₁ t₂) :
    Traverses t t₁ t₂ := by
  induction h with
  | code steps ih => exact ih (hran.of_code steps)
  | done | noMembers | finished => exact .of_same rfl fun _ => rfl
  | quiet perform _ others ih => exact (traverses_setScopes _).trans (ih (hran.of_quiet perform others))
  | visit located first others ihfirst ihothers =>
    obtain ⟨hfirst, hothers⟩ := hran.of_visit located first others
    exact ((traverses_setScopes _).trans (ihfirst hfirst)).trans (ihothers hothers)
  | localClass first others _ ihfirst ihothers =>
    obtain ⟨hfirst, _, hothers⟩ := hran.of_captured first (spans_nameLocal · _ _) others
    exact (((traverses_setScopes _).trans (ihfirst hfirst)).trans (traverses_nameLocal _ _)).trans
      (ihothers hothers)
  | anonymousClass first others _ ihfirst ihothers =>
    obtain ⟨hfirst, _, hothers⟩ := hran.of_captured first (.refl _) others
    exact ((traverses_setScopes _).trans (ihfirst hfirst)).trans (ihothers hothers)
  | cls registers members ih =>
    have hmembers := hran.of_cls registers members
    exact (Ran.traverses_cls registers hmembers).trans (ih hmembers)
  | members first others ihfirst ihothers =>
    obtain ⟨hfirst, hothers⟩ := hran.of_members first others
    exact (ihfirst hfirst).trans (ihothers hothers)
  | idle _ amends | noCode amends => exact amends.traverses
  | fields _ codes ih | constant _ _ codes ih => exact ih (hran.of_fields codes)
  | @method c member body id scope label components s t₁ t' t₂ _ hasBody adds opened plain code ih =>
    obtain ⟨hlevel, hclosed, hcode⟩ := hran.of_method adds opened code
    have hadded : Traverses t t₁ t' := by
      refine ⟨fun k hold hnew => absurd (adds.size ▸ hnew) (Nat.not_lt.mpr hold), fun m n hm => ?_⟩
      by_cases heq : m = id
      · subst heq
        cases adds.added.symm.trans hm
        cases adds.owner
        exact .inr ⟨body, scope, label, components, s, t', t₂, hasBody, plain, hlevel, hclosed, opened, hcode⟩
      · exact .inl ((adds.coded m heq).symm.trans hm)
    exact (hadded.trans (traverses_setScopes _)).trans (ih hcode)
  | constantBody _ _ codes nested _ ihcodes ihnested =>
    obtain ⟨hcodes, hnested⟩ := hran.of_constantBody codes nested
    exact (ihcodes hcodes).trans (ihnested hnested)
  | block _ code ih => exact ih (hran.of_block code)
  | nested _ nested amends ih => exact (ih (hran.of_nested nested amends)).trans amends.traverses
  | own amends first others ihfirst ihothers =>
    obtain ⟨hfirst, hothers⟩ := hran.of_own amends first others
    exact ((amends.traverses.trans (traverses_setScopes _)).trans (ihfirst hfirst)).trans (ihothers hothers)
  | aside amends others ih => exact amends.traverses.trans (ih (hran.of_aside amends others))
  | topLevel _ first amends others ihfirst ihothers =>
    obtain ⟨hfirst, hothers⟩ := hran.of_topLevel first amends others
    exact ((ihfirst hfirst).trans amends.traverses).trans (ihothers hothers)

/-- classes are numbered in the order in which they are declared, and the latest comes first -/
def Table.Numbered (t : Table) : Prop :=
  t.declared.map (·.2) = (List.range t.classes.size).reverse

theorem Table.Revises.numbered (h : t.Revises t') (hnumbered : t.Numbered) : t'.Numbered := by
  rw [Numbered, h.declared, h.size]
  exact hnumbered

/-- of several entries under one key the first is found, which is the latest -/
theorem find?_of_decreasing {xs : List (Node.Key × ClassId)} {key : Node.Key}
    (hdecreasing : (xs.map (·.2)).Pairwise (· > ·)) (hmem : (key, k) ∈ xs) :
    ∃ e ∈ xs, xs.find? (·.1 == key) = some e ∧ k ≤ e.2 := by
  induction xs with
  | nil => cases hmem
  | cons x xs ih =>
    rw [List.map_cons, List.pairwise_cons] at hdecreasing
    cases hx : x.1 == key with
    | true =>
      refine ⟨x, List.mem_cons_self, List.find?_cons_of_pos hx, ?_⟩
      rcases List.mem_cons.mp hmem with rfl | hrest
      · exact Nat.le_refl _
      · exact Nat.le_of_lt (hdecreasing.1 k (List.mem_map.mpr ⟨_, hrest, rfl⟩))
    | false =>
      rcases List.mem_cons.mp hmem with rfl | hrest
      · rw [beq_self_eq_true] at hx
        cases hx
      · obtain ⟨e, he, hfind, hle⟩ := ih hdecreasing.2 hrest
        exact ⟨e, List.mem_cons_of_mem _ he, (List.find?_cons_of_neg (by rw [hx]; decide)).trans hfind, hle⟩

theorem Table.Numbered.classFor (h : t.Numbered) (hdeclared : (n.key, k) ∈ t.declared) :
    ∃ c, t.classFor n = some c ∧ k ≤ c ∧ c < t.classes.size := by
  have hdecreasing : (t.declared.map (·.2)).Pairwise (· > ·) := by
    rw [h]
    exact List.pairwise_reverse.mpr List.pairwise_lt_range
  obtain ⟨e, he, hfind, hle⟩ := find?_of_decreasing hdecreasing hdeclared
  refine ⟨e.2, by rw [Table.classFor, hfind]; rfl, hle, ?_⟩
  have hmem : e.2 ∈ t.declared.map (·.2) := List.mem_map.mpr ⟨e, he, rfl⟩
  rw [h, List.mem_reverse, List.mem_range] at hmem
  exact hmem

theorem Table.classFor_of_nodup (h : (t.declared.map (·.1)).Nodup) (hdeclared : (n.key, k) ∈ t.declared) :
    t.classFor n = some k := by
  cases hfind : t.declared.find? (·.1 == n.key) with
  | none =>
    have hne := List.find?_eq_none.mp hfind _ hdeclared
    exact absurd (beq_self_eq_true _) hne
  | some e =>
    have hkey := List.find?_some hfind
    have hsame := List.inj_on_of_nodup_map h (List.mem_of_find?_eq_some hfind) hdeclared (eq_of_beq hkey)
    rw [Table.classFor, hfind, hsame]
    rfl

theorem steadfast_numbered : Steadfast Numbered where
  scopes _ ht := ht
  registers hr ht := by
    rw [Numbered, hr.declared, hr.size, List.map_cons, ht, List.range_succ, List.reverse_append]
    rfl
  revises hr ht := hr.numbered ht

namespace Table

variable {node : Node}

section
variable {source : SourceUnit} (h : ofSource source = .ok t)
include h

theorem ran_unit : ∃ t₀, t.Ran (.unit source.root.namedChildren) { source } t₀ ∧ t₀.Amends t := by
  obtain ⟨t₀, hindexes, hamends⟩ := indexes_of_ofSource h
  have hsound := sound_start source
  have hfits : Duty.Fits { source } (.unit source.root.namedChildren) := ⟨hsound.closed, hsound.outermost⟩
  exact ⟨t₀, ⟨hindexes, hfits, hamends.spans (hindexes.spans hfits).closed⟩, hamends⟩

theorem traverses_of_ofSource : Traverses t { source } t := by
  obtain ⟨t₀, hran, hamends⟩ := ran_unit h
  exact (hran.indexes.traverses hran).trans hamends.traverses

theorem ranMembers_of_ofSource (hk : k < t.classes.size) : t.RanMembers k :=
  (traverses_of_ofSource h).members k (Nat.zero_le k) hk

theorem ranMethod_of_ofSource {m : MethodId} (hm : t.coded m = some n) : t.RanMethod m n := by
  refine ((traverses_of_ofSource h).methods m n hm).resolve_left fun hnone => ?_
  have hbare : coded { source } m = none := rfl
  rw [hbare] at hnone
  cases hnone

theorem numbered_of_ofSource : t.Numbered := by
  obtain ⟨t₀, hran, hamends⟩ := ran_unit h
  exact hamends.numbered (steadfast_numbered.indexes hran.indexes rfl)

end

/-! ## what was gone over in code -/

section
variable {owner : CodeOwner} {here inner sc : ScopeId} {steps rest : List Step}

theorem Ran.code (h : t.Ran (.code owner node sc) t₁ t₂) : t.Ran (.steps owner sc sc node.plan) t₁ t₂ := by
  cases h.indexes with
  | code steps => exact h.of_code steps

theorem Ran.quiet (h : t.Ran (.steps owner here inner (step :: rest)) t₁ t₂) (hquiet : step.isQuiet = true) :
    ∃ p, step.perform t₁.source here inner t₁.scopes = .ok p ∧
      t.Ran (.steps owner here p.inner rest) { t₁ with scopes := p.scopes } t₂ := by
  cases h.indexes with
  | quiet perform _ others => exact ⟨_, perform, h.of_quiet perform others⟩
  | visit | localClass | anonymousClass => cases hquiet

theorem Ran.visit {part : Node} (h : t.Ran (.steps owner here inner (.visit part place :: rest)) t₁ t₂) :
    ∃ sc s t', place.locate t₁.source here inner t₁.scopes = .ok (sc, s) ∧
      t.Ran (.code owner part sc) { t₁ with scopes := s } t' ∧
      t.Ran (.steps owner here inner rest) t' t₂ := by
  cases h.indexes with
  | quiet perform idle _ =>
    obtain ⟨_, _, hdone⟩ := Run.of_except_bind perform
    cases hdone
    rcases idle with hidle | ⟨_, hidle⟩ <;> cases hidle
  | visit located first others => exact ⟨_, _, _, located, h.of_visit located first others⟩

theorem Ran.localClass {declaration : Node}
    (h : t.Ran (.steps owner here inner (.localClass declaration :: rest)) t₁ t₂) :
    ∃ t', t.Ran (.cls (some owner) declaration (declaration.child? "body") (t₁.scopes.snapshot here).1)
        { t₁ with scopes := (t₁.scopes.snapshot here).2 } t' ∧
      Spans (· < t₁.scopes.frames.size) t' t ∧
      t.Ran (.steps owner here inner rest) (t'.nameLocal here t₁.classes.size) t₂ := by
  cases h.indexes with
  | quiet perform idle _ =>
    cases perform
    rcases idle with hidle | ⟨_, hidle⟩ <;> cases hidle
  | localClass first others => exact ⟨_, h.of_captured first (spans_nameLocal · _ _) others⟩

theorem Ran.anonymousClass {creation body : Node}
    (h : t.Ran (.steps owner here inner (.anonymousClass creation body :: rest)) t₁ t₂) :
    ∃ t', t.Ran (.cls (some owner) creation (some body) (t₁.scopes.snapshot here).1)
        { t₁ with scopes := (t₁.scopes.snapshot here).2 } t' ∧
      Spans (· < t₁.scopes.frames.size) t' t ∧ t.Ran (.steps owner here inner rest) t' t₂ := by
  cases h.indexes with
  | quiet perform idle _ =>
    cases perform
    rcases idle with hidle | ⟨_, hidle⟩ <;> cases hidle
  | anonymousClass first others => exact ⟨_, h.of_captured first (.refl _) others⟩

theorem Ran.tail (h : t.Ran (.steps owner here inner (step :: rest)) t₁ t₂) :
    ∃ inner' t', t.Ran (.steps owner here inner' rest) t' t₂ := by
  cases step with
  | enter | declare | caseConstant =>
    obtain ⟨p, _, hrest⟩ := h.quiet rfl
    exact ⟨p.inner, _, hrest⟩
  | visit =>
    obtain ⟨_, _, t', _, _, hrest⟩ := h.visit
    exact ⟨inner, t', hrest⟩
  | localClass =>
    obtain ⟨_, _, _, hrest⟩ := h.localClass
    exact ⟨inner, _, hrest⟩
  | anonymousClass =>
    obtain ⟨t', _, _, hrest⟩ := h.anonymousClass
    exact ⟨inner, t', hrest⟩

theorem Ran.at_step (h : t.Ran (.steps owner here inner steps) t₁ t₂) (hstep : step ∈ steps) :
    ∃ inner' a rest, t.Ran (.steps owner here inner' (step :: rest)) a t₂ := by
  induction steps generalizing t₁ inner with
  | nil => cases hstep
  | cons first rest ih =>
    rcases List.mem_cons.mp hstep with rfl | hrest
    · exact ⟨inner, t₁, rest, h⟩
    · obtain ⟨_, _, hothers⟩ := h.tail
      exact ih hothers hrest

theorem Ran.part_of_mem {part : Node} (h : t.Ran (.steps owner here inner steps) t₁ t₂)
    (hpart : .visit part place ∈ steps) : ∃ sc a b, t.Ran (.code owner part sc) a b := by
  obtain ⟨_, _, _, hstep⟩ := h.at_step hpart
  obtain ⟨sc, _, t', _, hfirst, _⟩ := hstep.visit
  exact ⟨sc, _, t', hfirst⟩

theorem Ran.class_of_mem {creation body : Node} (h : t.Ran (.steps owner here inner steps) t₁ t₂)
    (hclass : .anonymousClass creation body ∈ steps) :
    ∃ parent a b, t.Ran (.cls (some owner) creation (some body) parent) a b := by
  obtain ⟨_, _, _, hstep⟩ := h.at_step hclass
  obtain ⟨t', hfirst, _⟩ := hstep.anonymousClass
  exact ⟨_, _, t', hfirst⟩

end

/-! ## what was gone over in a class -/

/-- a class that is declared in code of `owner` by `node` -/
structure Entered (t : Table) (owner : CodeOwner) (node : Node) (k : ClassId) : Prop where
  lt : k < t.classes.size
  later : owner.cls < k
  declared : (node.key, k) ∈ t.declared
  outers : (t.decl k).outers = t.outersOf (some owner.cls)
  enclosing : (t.decl k).enclosingMethod = owner.method

theorem Ran.entered {owner : CodeOwner} (h : t.Ran (.cls (some owner) node body parent) t₁ t₂) :
    t.Entered owner node t₁.classes.size := by
  have howner : owner.cls < t₁.classes.size := h.fits.stands.1 owner rfl
  have houters := h.stays.outersOf howner
  cases h.indexes with
  | @cls _ _ _ _ _ t' _ registers members =>
    have hstays := (h.of_cls registers members).stays
    have hlt : t₁.classes.size < t'.classes.size := registers.size ▸ Nat.lt_succ_self _
    have hfixed := (hstays.fixed hlt).trans registers.fixed
    refine ⟨Nat.lt_of_lt_of_le hlt hstays.size, howner, ?_, ?_, congrArg (·.2.2.1) hfixed⟩
    · exact hstays.declared.subset (registers.declared ▸ List.mem_cons_self)
    · rw [houters]
      exact congrArg (·.2.1) hfixed

/-- the class sees the block levels around its declaration as they were then -/
theorem Ran.captured {owner : CodeOwner} {here : ScopeId}
    (h : t.Ran (.cls (some owner) node body (t₁.scopes.snapshot here).1)
      { t₁ with scopes := (t₁.scopes.snapshot here).2 } t₂)
    (hhere : t₁.Houses owner here) (hafter : Spans (· < t₁.scopes.frames.size) t₂ t) :
    t.scopes.blocksOf (t.scopes.frame (t.decl t₁.classes.size).scope).ancestors =
      t₁.scopes.blocks here := by
  let s := (t₁.scopes.snapshot here).2
  have hspans : Spans (fun _ => False) { t₁ with scopes := s } t₂ := h.spans
  cases h.indexes with
  | @cls _ _ _ _ _ t' _ registers members =>
    obtain ⟨shown, hscopes⟩ := registers.scopes
    have hstays := (h.of_cls registers members).stays
    have hlt : t₁.classes.size < t'.classes.size := registers.size ▸ Nat.lt_succ_self _
    have hscope : (t.decl t₁.classes.size).scope = s.frames.size :=
      congrArg (·.2.2.2) ((hstays.fixed hlt).trans registers.fixed)
    have hnew : t'.scopes.frame s.frames.size =
        { label := s!"class_{shown}", cls := some t₁.classes.size,
          ancestors := s.chain (t₁.scopes.snapshot here).1 } := by
      rw [hscopes]
      exact Scopes.frame_add_self _ _
    have hsize : s.frames.size < t'.scopes.frames.size := by
      rw [hscopes]
      show s.frames.size < (s.add _).2.frames.size
      rw [Scopes.size_add]
      exact Nat.lt_succ_self _
    rw [hscope, hstays.scopes.ancestors _ hsize, hnew]
    have hclasses : t₁.scopes.classes here ≠ [] := hhere.stands.classes ▸ List.cons_ne_nil _ _
    refine Scopes.blocks_snapshot hhere.stands.valid hclasses
      (hspans.stays.scopes.trans hafter.stays.scopes) fun id hold hid hblock => ?_
    -- the copied levels are filled neither by the class nor after it
    have hsame := hspans.spares.frame id hid not_false hblock
    have hid' := Nat.lt_of_lt_of_le hid hspans.stays.scopes.size
    exact (hafter.spares.frame id hid' (Nat.not_lt.mpr hold) (hsame ▸ hblock)).trans hsame

section
variable {c : ClassId} {member : Node}

theorem Ran.member_of_mem {members : List Node} (h : t.Ran (.members c members) t₁ t₂)
    (hmember : member ∈ members) : ∃ a b, t.Ran (.member c member) a b := by
  induction members generalizing t₁ with
  | nil => cases hmember
  | cons first rest ih =>
    cases h.indexes with
    | members hfirst hothers =>
      obtain ⟨hfirst, hothers⟩ := h.of_members hfirst hothers
      rcases List.mem_cons.mp hmember with rfl | hrest
      · exact ⟨_, _, hfirst⟩
      · exact ih hothers hrest

theorem Ran.code_of_own {code : Node} (h : t.Ran (.own c codes) t₁ t₂) (hcode : code ∈ codes) :
    ∃ sc a b, t.Ran (.code ⟨c, none⟩ code sc) a b := by
  induction codes generalizing t₁ with
  | nil => cases hcode
  | cons first rest ih =>
    cases h.indexes with
    | own amends hfirst hothers =>
      obtain ⟨hfirst, hothers⟩ := h.of_own amends hfirst hothers
      rcases List.mem_cons.mp hcode with rfl | hrest
      · exact ⟨_, _, _, hfirst⟩
      · exact ih hothers hrest

/-- what was gone over in a member of a class, by the kind of the member -/
def RanMember (t : Table) (c : ClassId) (member : Node) : MemberKind → Prop
  | .field => ∃ a b, t.Ran (.own c member.initializers) a b
  | .method => ∀ body, member.child? "body" = some body →
      (∃ id sc a b, t.Ran (.code ⟨c, some id⟩ body sc) a b) ∧
        ∃ (s : Scopes) (parent : ScopeId) (label : String) (opened : ScopeId × Scopes),
          s.childDeclaring t.source parent label member.methodNames = .ok opened
  | .block | .staticBlock => ∃ sc a b, t.Ran (.code ⟨c, none⟩ member sc) a b
  | .nested _ => ∃ body parent a b, t.Ran (.cls (some ⟨c, none⟩) member body parent) a b
  | .constant => (∃ a b, t.Ran (.own c (member.child? "arguments").toList) a b) ∧
      ∀ body, member.child? "body" = some body →
        ∃ parent a b, t.Ran (.cls (some ⟨c, none⟩) member (some body) parent) a b
  | .other => True

theorem Ran.ranMember (h : t.Ran (.member c member) t₁ t₂) :
    t.RanMember c member (MemberKind.ofKind member.kind) := by
  cases h.indexes with
  | idle isIdle amends =>
    unfold Node.isIdle at isIdle
    cases hkind : MemberKind.ofKind member.kind with
    | method =>
      rw [hkind] at isIdle
      intro body hbody
      rw [hbody] at isIdle
      cases isIdle
    | other => trivial
    | field | constant | block | staticBlock | nested =>
      rw [hkind] at isIdle
      cases isIdle
  | fields kind codes =>
    rw [kind]
    exact ⟨_, _, h.of_fields codes⟩
  | method kind hasBody adds opened _ code =>
    rw [kind]
    intro body hbody
    cases hasBody.symm.trans hbody
    have hcode := (h.of_method adds opened code).2.2
    have hsource := hcode.stays.source
    exact ⟨⟨_, _, _, _, hcode⟩, _, _, _, _, hsource ▸ opened⟩
  | constant kind noBody codes =>
    rw [kind]
    refine ⟨⟨_, _, h.of_fields codes⟩, fun body hbody => ?_⟩
    cases noBody.symm.trans hbody
  | constantBody kind hasBody codes nested =>
    rw [kind]
    obtain ⟨hcodes, hnested⟩ := h.of_constantBody codes nested
    refine ⟨⟨_, _, hcodes⟩, fun body hbody => ?_⟩
    cases hasBody.symm.trans hbody
    exact ⟨_, _, _, hnested⟩
  | block kind code =>
    rcases kind with kind | kind <;> rw [kind] <;> exact ⟨_, _, _, h.of_block code⟩
  | nested kind nested amends =>
    rw [kind]
    exact ⟨_, _, _, _, h.of_nested nested amends⟩

end

end Table

end StaticPromotion
