import StaticPromotion.Proofs.Enrolling

/-!
# Supertypes are classes of the table

Classes are known by their numbers, and a table names them in many places: the level of a class names its class, a level of a
block the types declared there, a class its members, the unit its classes. Whatever place a supertype was found in, it is the
number of a class of the table.

* `Scopes.NamesBelow`      the types named in the levels of a store have numbers below a bound;
* `Table.BarelyLinked`     before supertypes are linked, the only one that a class may have is the class around it;
* `Table.Knows`            all classes named in the places that a lookup searches are there. `Knows.resolveTypeText`: then so is
                           what it finds;
* `lt_of_mem_supertypes`   in the table of a unit every supertype is a class of it.
-/

namespace StaticPromotion

/-! ## types named in levels -/

namespace Scopes

def NamesBelow (bound : Nat) (s : Scopes) : Prop :=
  ∀ id name c, (s.frame id).types.get? name = some c → c < bound

theorem NamesBelow.mono {bound bound' : Nat} {s : Scopes} (h : s.NamesBelow bound) (hle : bound ≤ bound') :
    s.NamesBelow bound' :=
  fun id name c hc => Nat.lt_of_lt_of_le (h id name c hc) hle

variable {bound : Nat} {s : Scopes}

theorem NamesBelow.add (h : s.NamesBelow bound) {f : Frame} (hf : ∀ name c, f.types.get? name = some c → c < bound) :
    (s.add f).2.NamesBelow bound := by
  intro id name c hc
  by_cases hid : id = s.frames.size
  · rw [hid, frame_add_self] at hc
    exact hf name c hc
  · rw [frame_add_of_ne s f hid] at hc
    exact h id name c hc

theorem NamesBelow.addBare (h : s.NamesBelow bound) {f : Frame} (hf : f.types = []) : (s.add f).2.NamesBelow bound := by
  refine h.add fun name c hc => ?_
  rw [hf] at hc
  cases hc

theorem NamesBelow.modifyFrame (h : s.NamesBelow bound) (id : ScopeId) {change : Frame → Frame}
    (hchange : ∀ name c, (change (s.frame id)).types.get? name = some c → c < bound) :
    (s.modifyFrame id change).NamesBelow bound := by
  intro other name c hc
  by_cases hother : other = id
  · rcases Nat.lt_or_ge id s.frames.size with hlt | hge
    · rw [hother, frame_modifyFrame_self s change hlt] at hc
      exact hchange name c hc
    · rw [frame_of_le _ (by rw [size_modifyFrame, hother]; exact hge)] at hc
      cases hc
  · rw [frame_modifyFrame_of_ne s change hother] at hc
    exact h other name c hc

theorem namesBelow_plan (bound : Nat) : PlanInvariant (NamesBelow bound) where
  child _ _ _ h := h.addBare rfl
  declare _ sc _ h := h.modifyFrame sc fun name c hc => h sc name c hc

theorem NamesBelow.declareType (h : s.NamesBelow bound) (id : ScopeId) (name : String) {c : ClassId} (hc : c < bound) :
    (s.declareType id name c).NamesBelow bound := by
  refine h.modifyFrame id fun other k hk => ?_
  by_cases hother : other = name
  · rw [hother, Registry.get?_put_self] at hk
    cases hk
    exact hc
  · rw [Registry.get?_put_of_ne _ _ hother] at hk
    exact h id other k hk

theorem NamesBelow.snapshotChain (h : s.NamesBelow bound) (ids : List ScopeId) :
    (s.snapshotChain ids).2.NamesBelow bound := by
  induction ids with
  | nil => exact h
  | cons id outer ih =>
    rw [Scopes.snapshotChain]
    split
    · exact h
    · exact ih.add fun name c hc => h id name c hc

theorem NamesBelow.snapshot (h : s.NamesBelow bound) (id : ScopeId) : (s.snapshot id).2.NamesBelow bound :=
  h.snapshotChain (s.chain id)

theorem namesBelow_initial (bound : Nat) : initial.NamesBelow bound := by
  intro id name c hc
  cases id with
  | zero => cases hc
  | succ id =>
    rw [frame_of_le initial (Nat.succ_le_succ (Nat.zero_le id))] at hc
    cases hc

end Scopes

namespace Table

variable {t t' t₀ s : Table} {c k : ClassId} {source : SourceUnit}

def NamesKnown (t : Table) : Prop :=
  t.scopes.NamesBelow t.classes.size

theorem NamesKnown.same (h : t.NamesKnown) (hscopes : t'.scopes = t.scopes) (hsize : t'.classes.size = t.classes.size) :
    t'.NamesKnown := by
  rw [NamesKnown, hscopes, hsize]
  exact h

theorem NamesKnown.amends (h : t.NamesKnown) (hamends : t.Amends t') : t'.NamesKnown :=
  h.same hamends.scopes hamends.size

theorem NamesKnown.setScopes (h : t.NamesKnown) {s : Scopes}
    (hs : t.scopes.NamesBelow t.classes.size → s.NamesBelow t.classes.size) : NamesKnown { t with scopes := s } :=
  hs h

theorem NamesKnown.nameLocal (h : t.NamesKnown) (scope : ScopeId) (hc : c < t.classes.size) :
    (t.nameLocal scope c).NamesKnown := by
  unfold Table.nameLocal
  split
  · exact h
  · exact Scopes.NamesBelow.declareType h scope _ hc

theorem NamesKnown.registers {outer : Option CodeOwner} {node : Node} {body : Option Node} {parent : ScopeId}
    (h : t.NamesKnown) (hregisters : Registers outer node body parent t t') : t'.NamesKnown := by
  obtain ⟨shown, hscopes⟩ := hregisters.scopes
  rw [NamesKnown, hscopes, hregisters.size]
  exact (h.mono (Nat.le_succ _)).addBare rfl

end Table

open Table in
/-- a local type is named after its class has been entered -/
theorem Indexes.namesKnown {duty : Duty} {t t' : Table} (h : Indexes duty t t') (hnames : t.NamesKnown) : t'.NamesKnown := by
  have plan (bound : Nat) := Scopes.namesBelow_plan bound
  induction h with
  | code _ ih => exact ih hnames
  | done => exact hnames
  | quiet perform _ _ ih => exact ih (hnames.setScopes fun h => (plan _).perform h perform)
  | visit located _ _ ihfirst ihothers =>
    exact ihothers (ihfirst (hnames.setScopes fun h => (plan _).locate h located))
  | localClass first _ _ ihfirst ihothers =>
    have hknown := ihfirst (hnames.setScopes fun h => h.snapshot _)
    refine ihothers (hknown.nameLocal _ ?_)
    cases first with
    | cls registers members =>
      exact Nat.lt_of_lt_of_le (registers.size ▸ Nat.lt_succ_self _) members.stays.size
  | anonymousClass _ _ _ ihfirst ihothers => exact ihothers (ihfirst (hnames.setScopes fun h => h.snapshot _))
  | cls registers _ ih => exact ih (hnames.registers registers)
  | noMembers => exact hnames
  | members _ _ ihfirst ihothers => exact ihothers (ihfirst hnames)
  | idle _ amends => exact hnames.amends amends
  | fields _ _ ih => exact ih hnames
  | method _ _ adds opened _ _ ih =>
    have hadded := hnames.same adds.scopes adds.size
    exact ih (hadded.setScopes fun h => (plan _).declareAll ((plan _).childDeclaring h opened) _ _)
  | constant _ _ _ ih => exact ih hnames
  | constantBody _ _ _ _ _ ihcodes ihnested => exact ihnested (ihcodes hnames)
  | block _ _ ih => exact ih hnames
  | nested _ _ amends ih => exact (ih hnames).amends amends
  | noCode amends => exact hnames.amends amends
  | own amends _ _ ihfirst ihothers =>
    exact ihothers (ihfirst ((hnames.amends amends).setScopes fun h => (plan _).child _ _ _ h))
  | finished => exact hnames
  | aside amends _ ih => exact ih (hnames.amends amends)
  | topLevel _ _ amends _ ihfirst ihothers => exact ihothers ((ihfirst hnames).amends amends)

namespace Table

variable {t t' t₀ s : Table} {c k : ClassId} {source : SourceUnit}

/-! ## supertypes before they are linked -/

def BarelyLinked (t : Table) : Prop :=
  ∀ c, ∀ k ∈ (t.decl c).supertypes, (t.decl c).outer = some k

theorem BarelyLinked.entered {node : Node} {d : ClassDecl} {outer : Option CodeOwner} {parent : ScopeId} {shown : String}
    (h : t.BarelyLinked) (hd : Newcomer t outer d) : (t.entered node d parent shown).BarelyLinked := by
  intro c k hk
  rcases Nat.lt_trichotomy c t.classes.size with hlt | heq | hgt
  · rw [decl_entered_of_lt t node d parent shown hlt] at hk ⊢
    exact h c k hk
  · rw [heq, decl_entered_self] at hk ⊢
    exact hd.supertypes k hk
  · rw [decl_of_le _ (by rw [size_entered]; exact hgt)] at hk
    cases hk

theorem BarelyLinked.keep (h : t.BarelyLinked)
    (hsame : ∀ c, ((t'.decl c).supertypes, (t'.decl c).outer) = ((t.decl c).supertypes, (t.decl c).outer)) :
    t'.BarelyLinked := by
  intro c k hk
  obtain ⟨hsupertypes, houter⟩ := Prod.mk.inj (hsame c)
  rw [hsupertypes] at hk
  rw [houter]
  exact h c k hk

theorem BarelyLinked.enrolled (h : t.BarelyLinked) (outer : Option ClassId) (c : ClassId) :
    (t.enrolled outer c).BarelyLinked := by
  unfold Table.enrolled
  split
  · exact h
  · exact h
  · exact h.keep (modify_keeps (fun d => (d.supertypes, d.outer)) t _ fun _ => rfl)

theorem carried_barelyLinked : Carried fun t t' => t.BarelyLinked → t'.BarelyLinked where
  refl _ := id
  trans h h' := h' ∘ h
  scopes _ _ h := h
  furnishes hfurnishes h := h.keep fun c => by
    have houters := congrArg (·.2.2.1) (hfurnishes.settled c)
    rw [Prod.mk.injEq]
    exact ⟨congrArg (·.2) (hfurnishes.links c), congrArg List.head? houters⟩
  inCode hd h _ hlinked := h (hlinked.entered hd)
  named hd _ h _ hlinked := (h (hlinked.entered hd)).enrolled _ _

theorem barelyLinked_of_indexed (first : indexed source = .ok t) : t.BarelyLinked := by
  refine carried_barelyLinked.indexed first fun c k hk => ?_
  rw [decl_of_le { source } (Nat.zero_le c)] at hk
  cases hk

/-! ## what a lookup finds -/

structure Knows (t : Table) : Prop where
  names : t.NamesKnown
  cls : ∀ id c, (t.scopes.frame id).cls = some c → c < t.classes.size
  rightful : t.Rightful

theorem Sound.lt_of_cls (h : t.Sound) {id : ScopeId} (hcls : (t.scopes.frame id).cls = some c) : c < t.classes.size := by
  rcases Nat.lt_or_ge id t.scopes.frames.size with hlt | hge
  · exact (h.nested id hlt).1 c (List.mem_filterMap.mpr ⟨id, List.mem_cons_self, hcls⟩)
  · rw [Scopes.frame_of_le _ hge] at hcls
    cases hcls

theorem knows_of_indexed (first : indexed source = .ok t) : t.Knows := by
  refine ⟨?_, fun id c hcls => (unfolds_of_indexed first).sound.lt_of_cls hcls, ?_⟩
  · exact (indexes_of_indexed first).namesKnown (Scopes.namesBelow_initial _)
  · exact (carried_enrols.indexed first).rightful (rightful_start source)

theorem Knows.relinks (h : t.Knows) (hrelinks : t.Relinks s) : s.Knows where
  names := h.names.same hrelinks.scopes hrelinks.size
  cls id c hcls := by
    rw [hrelinks.scopes] at hcls
    rw [hrelinks.size]
    exact h.cls id c hcls
  rightful := hrelinks.enrols.rightful h.rightful

section
variable (h : t.Knows) {scope : ScopeId} {name : String}
include h

theorem Knows.findMemberType (hfound : t.findMemberType c name = some k) : k < t.classes.size := by
  obtain ⟨_, o, _, _, ho, _⟩ := List.findSome?_eq_some_iff.mp hfound
  exact (h.rightful (some o) name k ho).lt

theorem Knows.typeAtLevel {id : ScopeId} (hfound : t.typeAtLevel name (t.scopes.frame id) = some k) :
    k < t.classes.size := by
  unfold Table.typeAtLevel at hfound
  split at hfound
  · rename_i htypes
    cases hfound
    exact h.names id name k htypes
  · cases hfound
  · rename_i hcls
    split at hfound
    · cases hfound
      exact h.cls id k hcls
    · exact h.findMemberType hfound

theorem Knows.resolveTypeName {ref : TypeRef} (hfound : t.resolveTypeName t.scopes scope name = some ref)
    (hcls : ref.cls = some k) : k < t.classes.size := by
  unfold Table.resolveTypeName at hfound
  split at hfound
  · rename_i hlevel
    cases hfound
    cases hcls
    obtain ⟨_, level, _, hlevels, hat, _⟩ := List.findSome?_eq_some_iff.mp hlevel
    have hmem : level ∈ t.scopes.levels scope := by
      rw [hlevels]
      exact List.mem_append_right _ List.mem_cons_self
    obtain ⟨id, _, rfl⟩ := List.mem_map.mp hmem
    exact h.typeAtLevel hat
  · rename_i htop
    cases hfound
    cases hcls
    exact (h.rightful none name k htop).lt
  · split at hfound
    · cases hfound
      cases hcls
    · cases hfound

/-- each member is looked up in the class that was found before it -/
theorem Knows.memberPath {start : Option ClassId} (hstart : ∀ c ∈ start, c < t.classes.size) (path : List String)
    (hfound : t.memberPath start path = some k) : k < t.classes.size := by
  induction path generalizing start with
  | nil => exact hstart k hfound
  | cons name path ih =>
    refine ih (fun c hc => ?_) hfound
    obtain ⟨o, _, ho⟩ := Option.bind_eq_some_iff.mp hc
    exact h.findMemberType ho

theorem Knows.resolveTypeText {ref : TypeRef} {written : String}
    (hfound : t.resolveTypeText t.scopes scope written = some ref) (hcls : ref.cls = some k) : k < t.classes.size := by
  simp only [Table.resolveTypeText] at hfound
  split at hfound
  · cases hfound
  split at hfound
  · cases hfound
  split at hfound
  · rename_i head hhead
    cases hfound
    exact h.memberPath (fun c hc => h.resolveTypeName hhead hc) _ hcls
  split at hfound
  · cases hfound
  split at hfound
  · rename_i last _ _
    cases hfound
    exact (h.rightful none last k hcls).lt
  · cases hfound
    cases hcls

theorem Knows.lookUp {w : Clause} (hfound : t.lookUp c w = some k) : k < t.classes.size := by
  obtain ⟨ref, href, hcls⟩ := Option.bind_eq_some_iff.mp hfound
  exact h.resolveTypeText href hcls

end

/-! ## linked supertypes -/

/-- a link changes nothing that a lookup searches -/
theorem Knows.links (h : s.Knows) (c : ClassId) (ws : List Clause) (hk : some k ∈ links c s ws) : k < s.classes.size := by
  induction ws generalizing s with
  | nil => cases hk
  | cons w ws ih =>
    rcases List.mem_cons.mp hk with hfound | hrest
    · exact h.lookUp hfound.symm
    · have hlater := ih (h.relinks ((Relinks.refl s).linkClause c w)) hrest
      rw [size_linkClause] at hlater
      exact hlater

theorem lt_of_mem_supertypes (built : ofSource source = .ok t) (hk : k ∈ (t.decl c).supertypes) : k < t.classes.size := by
  obtain ⟨t₀, first, hdone⟩ := Run.of_except_bind built
  cases hdone
  have hsize := (relinks_linkedAll t₀).size
  rcases Nat.lt_or_ge c t₀.classes.size with hc | hc
  · show k < t₀.linkedAll.classes.size
    rw [hsize]
    replace hk : k ∈ (t₀.linkedAll.decl c).supertypes := hk
    rw [supertypes_linkedAll hc] at hk
    rcases List.mem_append.mp hk with hbare | hlinked
    · have houter := barelyLinked_of_indexed first c k hbare
      exact Nat.lt_trans ((unfolds_of_indexed first).sound.outers_lt c hc k (List.mem_of_mem_head? houter)) hc
    · obtain ⟨found, hfound, rfl⟩ := List.mem_filterMap.mp hlinked
      have hstage := (Relinks.refl t₀).foldl_linkSupertypes (List.range c)
      have hlt := ((knows_of_indexed first).relinks hstage).links c _ hfound
      rw [hstage.size] at hlt
      exact hlt
  · replace hk : k ∈ (t₀.linkedAll.decl c).supertypes := hk
    rw [decl_of_le _ (Nat.le_trans (Nat.le_of_eq hsize) hc)] at hk
    cases hk

end Table

end StaticPromotion
