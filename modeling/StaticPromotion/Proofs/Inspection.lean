import StaticPromotion.Proofs.Agreement
import StaticPromotion.Proofs.Independence

/-!
# Inspections keep in step

The classes that an inspection comes to were gone over by the pass as well, member by member. So the whole inspection keeps in
step with the pass, and this is said of every region that it comes to.

* `Table.HasOwnBodies`         what is found for an enum constant without a body is no class: by induction over the derivation
                               of the pass, since each class was entered with the body that its node has;
* `Subject.BodyAt.visitBody`   the code of a class, by the kinds of its members;
* `Subject.works_walkRegion`   the walk works at every depth, by induction over the depth;
* `Table.Inspects.inStep`      how an inspection stands to the pass wherever it comes to;
* `Table.classify_ends`        how the classification of a method can end.
-/

namespace StaticPromotion

variable {n : Node}

open Table

/-! ## enum constants -/

/-- an enum constant that has no body is not taken for one that has -/
def Table.HasOwnBodies (t : Table) : Prop :=
  ∀ n ∈ t.source.root.preorder, MemberKind.ofKind n.kind = .constant → n.child? "body" = none →
    t.classFor n = none

/-- where a class was entered for an enum constant, it has a body -/
def Table.EntersBodies (t : Table) : Prop :=
  ∀ e ∈ t.declared, e.2 < t.classes.size ∧ (e.1.2.2 = "enum_constant" → (t.decl e.2).body ≠ none)

def Duty.EntersBodies : Duty → Prop
  | .cls _ node body _ => node.kind = "enum_constant" → body ≠ none
  | .steps _ _ _ rest => ∀ d, .localClass d ∈ rest → d.kind ≠ "enum_constant"
  | _ => True

theorem Table.EntersBodies.congr {t t' : Table} (h : t.EntersBodies) (hdeclared : t'.declared = t.declared)
    (hsize : t'.classes.size = t.classes.size) (hsettled : ∀ k, (t'.decl k).settled = (t.decl k).settled) :
    t'.EntersBodies := by
  intro e he
  rw [hdeclared] at he
  obtain ⟨hlt, hbody⟩ := h e he
  refine ⟨hsize ▸ hlt, ?_⟩
  rw [show (t'.decl e.2).body = (t.decl e.2).body from congrArg (·.2.1) (hsettled e.2)]
  exact hbody

theorem Table.EntersBodies.amends {t t' : Table} (h : t.EntersBodies) (hamends : t.Amends t') :
    t'.EntersBodies :=
  h.congr hamends.declared hamends.size hamends.settled

theorem Table.EntersBodies.registers {t t' : Table} {outer : Option CodeOwner} {node : Node}
    {body : Option Node} {parent : ScopeId} (h : t.EntersBodies)
    (hregisters : Registers outer node body parent t t')
    (hnode : node.kind = "enum_constant" → body ≠ none) : t'.EntersBodies := by
  intro e he
  rw [hregisters.declared] at he
  rw [hregisters.size]
  rcases List.mem_cons.mp he with rfl | he
  · refine ⟨Nat.lt_succ_self _, ?_⟩
    rw [show (t'.decl t.classes.size).body = body from congrArg (·.1) hregisters.fixed]
    exact hnode
  · obtain ⟨hlt, hbody⟩ := h e he
    refine ⟨Nat.lt_succ_of_lt hlt, ?_⟩
    rw [show (t'.decl e.2).body = (t.decl e.2).body from congrArg (·.2.1) (hregisters.settled e.2 hlt)]
    exact hbody

theorem Node.entersBodies_plan (n : Node) : ∀ d, .localClass d ∈ n.plan → d.kind ≠ "enum_constant" := by
  intro d hd hkind
  obtain ⟨rfl, flavour, hconstruct⟩ := n.of_plan _ hd
  rw [construct, hkind] at hconstruct
  cases hconstruct

theorem Indexes.entersBodies {duty : Duty} {t t' : Table} (h : Indexes duty t t')
    (hduty : duty.EntersBodies) (ht : t.EntersBodies) : t'.EntersBodies := by
  induction h with
  | @code _ node _ _ _ _ ih => exact ih node.entersBodies_plan ht
  | done | noMembers | finished => exact ht
  | quiet _ _ _ ih => exact ih (fun d hd => hduty d (List.mem_cons_of_mem _ hd)) ht
  | visit _ _ _ ihFirst ihOthers =>
    exact ihOthers (fun d hd => hduty d (List.mem_cons_of_mem _ hd)) (ihFirst trivial ht)
  | localClass _ _ _ ihFirst ihOthers =>
    have hfirst := ihFirst (fun hkind => absurd hkind (hduty _ List.mem_cons_self)) ht
    refine ihOthers (fun d hd => hduty d (List.mem_cons_of_mem _ hd)) ?_
    unfold nameLocal
    split <;> exact hfirst
  | anonymousClass _ _ _ ihFirst ihOthers =>
    exact ihOthers (fun d hd => hduty d (List.mem_cons_of_mem _ hd)) (ihFirst (fun _ => nofun) ht)
  | cls registers _ ih => exact ih trivial (ht.registers registers hduty)
  | members _ _ ihFirst ihOthers => exact ihOthers trivial (ihFirst trivial ht)
  | idle _ amends | noCode amends => exact ht.amends amends
  | fields _ _ ih | constant _ _ _ ih | block _ _ ih => exact ih trivial ht
  | method _ _ adds _ _ _ ih =>
    have hadded := ht.congr adds.declared adds.size adds.settled
    exact ih trivial hadded
  | constantBody _ _ _ _ _ ihCodes ihNested => exact ihNested (fun _ => nofun) (ihCodes trivial ht)
  | nested kind _ amends ih =>
    refine (ih (fun hkind => ?_) ht).amends amends
    rw [hkind] at kind
    cases kind
  | own amends _ _ ihFirst ihOthers =>
    have hamended := ht.amends amends.toAmends
    exact ihOthers trivial (ihFirst trivial hamended)
  | aside amends _ ih => exact ih trivial (ht.amends amends)
  | topLevel kind _ amends _ ihFirst ihOthers =>
    refine ihOthers trivial ((ihFirst (fun hkind => ?_) ht).amends amends)
    rw [hkind] at kind
    cases kind

theorem Table.hasOwnBodies_of_ofSource {source : SourceUnit} {t : Table} (built : ofSource source = .ok t)
    (hkeys : source.root.HasDistinctKeys) : t.HasOwnBodies := by
  intro n hn hkind hbody
  cases hfound : t.classFor n with
  | none => rfl
  | some k =>
    obtain ⟨e, hfind, rfl⟩ := Option.map_eq_some_iff.mp hfound
    have hkey : e.1 = n.key := beq_iff_eq.mp (List.find?_some hfind :)
    have hconstant := kind_of_constant hkind
    obtain ⟨t₀, hran, hamends⟩ := ran_unit built
    have hempty : Table.EntersBodies { source } := fun e he => absurd he List.not_mem_nil
    have hbodies := (hran.indexes.entersBodies trivial hempty).amends hamends
    have henters : n.Enters (t.decl e.2).body := by
      refine (sound_of_ofSource built).enters_of_classFor ?_ hn ?_ hfound
      · rw [source_of_ofSource built]
        exact hkeys
      · rw [Node.isClassShaped, hconstant]
        rfl
    rw [Node.Enters, if_neg (construct_of_constant hkind), hbody] at henters
    refine absurd henters ((hbodies e (List.mem_of_find?_eq_some hfind)).2 ?_)
    rw [hkey]
    exact hconstant

theorem Scopes.text_of_declareNodes {scopes : Scopes} {source : SourceUnit} {id : ScopeId} {name : Node}
    {fault : Fault} (h : scopes.declareNodes source id [name] = .error fault) :
    source.text name = .error fault := by
  cases htext : source.text name with
  | ok written =>
    have hmap : [name].mapM source.text = .ok [written] := by
      rw [List.mapM_cons, htext]
      rfl
    rw [declareNodes, hmap] at h
    cases h
  | error fault' =>
    have hmap : [name].mapM source.text = .error fault' := by
      rw [List.mapM_cons, htext]
      rfl
    rw [declareNodes, hmap] at h
    cases h
    rfl

theorem Node.plan_of_staticBlock (h : MemberKind.ofKind n.kind = .staticBlock) :
    n.plan = visitAll .here n.namedChildren := by
  have hconstruct : n.construct = .unknown := by
    rw [construct, kind_of_staticBlock h]
    rfl
  rw [plan, hconstruct]

namespace Subject

variable {s : Subject} {region : CodeRegion}

theorem visitSteps_of_error {here inner : ScopeId} {step : Step} {st : WalkState} {fault : Fault}
    (h : step.perform s.table.source here inner st.scopes = .error fault) (go : Onward)
    (rest : List Step) : s.visitSteps go here inner (step :: rest) st = .error (.fault fault) st := by
  show (Subject.lift (step.perform s.table.source here inner st.scopes) >>= _) st = _
  rw [h]
  rfl

/-- since `st₀` no block level has been filled that was there then -/
def Unfilled (st₀ st : WalkState) : Prop :=
  Scopes.Spares (fun _ => False) st₀.scopes st.scopes

/-- what fills a level that has come since, or the level of a class -/
theorem Unfilled.after {st₀ st st' : WalkState} {sc : ScopeId} (h : Unfilled st₀ st)
    (hspares : Scopes.Spares (· = sc) st.scopes st'.scopes)
    (hsc : st₀.scopes.frames.size ≤ sc ∨ (st₀.scopes.frame sc).cls ≠ none) : Unfilled st₀ st' := by
  have hboth : Scopes.Spares (· = sc) st₀.scopes st'.scopes :=
    Scopes.Spares.andThen (h.mono fun _ _ _ hid => hid.elim) hspares
  refine hboth.mono fun id hid hblock heq => ?_
  subst heq
  rcases hsc with hnew | hclass
  · exact Nat.not_lt.mpr hnew hid
  · exact hclass hblock

/-! ## members of a class -/

section
variable {b : Nat} {go : Onward} {c : ClassId} {st₀ st : WalkState} {source : SourceUnit}
  (built : ofSource source = .ok s.table)

section

variable {t₁ t₂ : Table} {member : Node}
include built

theorem BodyAt.level (h : s.BodyAt b c st₀) : s.table.ClassLevel c := by
  obtain ⟨a, _, hran⟩ := ranMembers_of_ofSource built h.lt
  have hlevel : a.ClassLevel c := hran.fits.stands
  exact hlevel.stays hran.stays

/-- no class is declared inside a method that is one of its own -/
theorem BodyAt.elsewhere (h : s.BodyAt b c st₀) (om : Option MethodId) : ¬ s.Tracks ⟨c, om⟩ := by
  intro htracks
  have hsame : c = s.method.owner := congrArg (·.cls) htracks.own
  have hwithin := h.within htracks.once
  rw [hsame, (sound_of_ofSource built).owner_foreign (hsame ▸ h.lt)] at hwithin
  cases hwithin

theorem BodyAt.code (hgo : s.Works b go) (h : s.BodyAt (b + 1) c st₀) {om : Option MethodId}
    {sc v : ScopeId} (hran : s.table.Ran (.code ⟨c, om⟩ n v) t₁ t₂) (hn : n ∈ s.table.source.root.preorder)
    (hst : Unfilled st₀ st) (hstands : st.scopes.Stands sc (s.table.outersOf (some c))) :
    Ends s.table.Excluded (go (.code n sc)) st fun _ st' =>
      Scopes.Spares (· = sc) st.scopes st'.scopes := by
  have hdepth : s.reserve c + n.height < b := by
    have hheight := Node.height_le_of_mem_preorder hn
    have hroom := h.depth
    omega
  have hat : s.CodeAt b n sc st ⟨c, om⟩ v t₁ t₂ :=
    ⟨hran, hn, hdepth, h.grows.trans hst.grows, hstands, fun honce => .inr (h.within honce),
      fun htracks => absurd htracks (h.elsewhere built om)⟩
  exact (hgo.code hat).mono fun _ _ hdone => hdone.1

theorem BodyAt.openScope {bad : Halt → Prop} (h : s.BodyAt b c st₀) (label : String) (hst : Unfilled st₀ st) :
    Ends bad (Subject.openScope (s.table.decl c).scope label) st fun sc st' =>
      Unfilled st₀ st' ∧ st₀.scopes.frames.size ≤ sc ∧
        st'.scopes.Stands sc (s.table.outersOf (some c)) := by
  have hstands := (h.level built).stands.grows (h.grows.trans hst.grows)
  refine ⟨fun sc st' hx => ?_, fun _ _ hx => ?_⟩ <;> cases hx
  exact ⟨hst.andThen (st.scopes.spares_child _ label), hst.grows.size,
    hstands.child label⟩

theorem BodyAt.visitDeclarators (hgo : s.Works b go) (h : s.BodyAt (b + 1) c st₀) {sc : ScopeId}
    (hnew : st₀.scopes.frames.size ≤ sc) {steps : List Step}
    (hsteps : ∀ step ∈ steps,
      (∃ name ∈ s.table.source.root.preorder, step = .declare name .here) ∨
      ∃ value ∈ s.table.source.root.preorder, step = .visit value (.fresh .here Scopes.blockLabel []) ∧
        ∃ v t₁ t₂, s.table.Ran (.code ⟨c, none⟩ value v) t₁ t₂)
    (hst : Unfilled st₀ st) (hstands : st.scopes.Stands sc (s.table.outersOf (some c))) :
    Ends s.table.Excluded (s.visitSteps go sc sc steps) st fun _ st' => Unfilled st₀ st' := by
  induction steps generalizing st with
  | nil => exact ends_pure hst
  | cons step rest ih =>
    have hlater := fun step' hstep' => hsteps step' (List.mem_cons_of_mem _ hstep')
    rcases hsteps step List.mem_cons_self with ⟨name, hname, rfl⟩ | ⟨value, hvalue, rfl, v, t₁, t₂, hran⟩
    · cases hfilled : st.scopes.declareNodes s.table.source sc [name] with
      | ok filled =>
        have hp : (Step.declare name .here).perform s.table.source sc sc st.scopes =
            .ok { inner := sc, scopes := filled } := by
          show (st.scopes.declareNodes s.table.source sc [name] >>= _) = _
          rw [hfilled]
          rfl
        have hspares := Scopes.spares_declareNodes hfilled
        refine Ends.of_eq (visitSteps_cons hp go rest) (Ends.bind (ends_pure ?_))
        exact ih hlater (hst.after hspares (.inl hnew)) (hstands.grows hspares.grows)
      | error fault =>
        have hp : (Step.declare name .here).perform s.table.source sc sc st.scopes = .error fault := by
          show (st.scopes.declareNodes s.table.source sc [name] >>= _) = _
          rw [hfilled]
          rfl
        refine Ends.of_eq (y := lift (.error fault)) (visitSteps_of_error hp go rest) (ends_lift nofun fun fault' hfault => ?_)
        cases hfault
        exact not_excluded_of_text hname (Scopes.text_of_declareNodes hfilled)
    · obtain ⟨⟨u, opened⟩, hopen⟩ : ∃ q, st.scopes.childDeclaring s.table.source sc Scopes.blockLabel [] = .ok q :=
        ⟨_, rfl⟩
      have hp : (Step.visit value (.fresh .here Scopes.blockLabel [])).perform s.table.source sc sc st.scopes =
          .ok { action := .visit value u, inner := sc, scopes := opened } := by
        show (st.scopes.childDeclaring s.table.source sc Scopes.blockLabel [] >>= _) = _
        rw [hopen]
        rfl
      obtain ⟨hu, hspares⟩ := Scopes.spares_childDeclaring hopen
      have hopening := hstands.childDeclaring hopen
      have hst' : Unfilled st₀ { st with scopes := opened } := hst.andThen hspares
      refine Ends.of_eq (visitSteps_cons hp go rest) (Ends.bind ?_)
      refine (h.code built hgo hran hvalue hst' hopening.stands).mono fun _ st' hvisited => ?_
      exact ih hlater (hst'.after hvisited (.inl (hu ▸ hst.grows.size)))
        (hstands.grows (hopening.grows.trans hvisited.grows))

theorem BodyAt.visitField (hgo : s.Works b go) (h : s.BodyAt (b + 1) c st₀)
    (hn : member ∈ s.table.source.root.preorder) (hkind : MemberKind.ofKind member.kind = .field)
    (hran : s.table.RanMember c member .field) :
    Maintains s.table (Unfilled st₀) (s.visitMember go (s.table.decl c) member) := by
  intro st hst
  obtain ⟨t₁, t₂, hran⟩ := hran
  unfold Subject.visitMember
  rw [hkind]
  refine Ends.bind ((h.openScope built "field" hst).mono fun sc st' hopened => ?_)
  obtain ⟨hst', hnew, hstands⟩ := hopened
  refine h.visitDeclarators built hgo hnew (fun step hstep => ?_) hst' hstands
  obtain ⟨d, hd, hstep⟩ := List.mem_flatMap.mp hstep
  have hdeclarator := Node.mem_preorder_of_mem_children (Node.mem_of_mem_childrenAt hd) hn
  rcases List.mem_append.mp hstep with hname | hvalue
  · obtain ⟨name, hfound, rfl⟩ := List.mem_map.mp hname
    have hchild := Node.mem_of_child? (Option.mem_toList.mp hfound)
    exact .inl ⟨name, Node.mem_preorder_of_mem_children hchild hdeclarator, rfl⟩
  · obtain ⟨value, hfound, rfl⟩ := List.mem_map.mp hvalue
    have hchild := Node.mem_of_child? (Option.mem_toList.mp hfound)
    refine .inr ⟨value, Node.mem_preorder_of_mem_children hchild hdeclarator, rfl, ?_⟩
    exact hran.code_of_own (List.mem_flatMap.mpr ⟨d, hd, hfound⟩)

theorem BodyAt.visitInnerMethod (hgo : s.Works b go) (h : s.BodyAt (b + 1) c st₀)
    (hn : member ∈ s.table.source.root.preorder) (hran : s.table.RanMember c member .method) :
    Maintains s.table (Unfilled st₀) (s.visitInnerMethod go (s.table.decl c) member) := by
  intro st hst
  unfold Subject.visitInnerMethod
  cases hbody : member.child? "body" with
  | none => exact ends_pure hst
  | some body =>
    obtain ⟨⟨id, v, t₁, t₂, hcode⟩, scopes, parent, label, ⟨_, _⟩, hopened⟩ := hran body hbody
    obtain ⟨sc, opened, hopen⟩ :=
      Scopes.childDeclaring_of_ok hopened st.scopes (s.table.decl c).scope "method"
    obtain ⟨hnew, hspares⟩ := Scopes.spares_childDeclaring hopen
    have hstands := (h.level built).stands.grows (h.grows.trans hst.grows)
    have hopening := hstands.childDeclaring hopen
    refine Ends.bind (ends_get (Ends.bind (ends_lift (fun q hq => ?_) fun fault hfault => ?_)))
    · cases hopen.symm.trans hq
      dsimp only
      refine Ends.bind (ends_modify ?_)
      have hdeclared := opened.spares_declareAll sc
        (if member.kind == "compact_constructor_declaration" then (s.table.decl c).fields.map (·.1) else [])
      have hstart : Unfilled st₀ { st with scopes := opened } := hst.andThen hspares
      have hst' : Unfilled st₀ { st with scopes := _ } := hstart.after hdeclared (.inl (hnew ▸ hst.grows.size))
      refine (h.code built hgo hcode (Node.mem_preorder_of_mem_children (Node.mem_of_child? hbody) hn) hst'
        (hopening.stands.grows hdeclared.grows)).mono fun _ st'' hvisited => ?_
      exact hst'.after hvisited (.inl (hnew ▸ hst.grows.size))
    · cases hopen.symm.trans hfault

theorem BodyAt.inLevel (hgo : s.Works b go) (h : s.BodyAt (b + 1) c st₀) {om : Option MethodId}
    {v : ScopeId} (hran : s.table.Ran (.code ⟨c, om⟩ n v) t₁ t₂) (hn : n ∈ s.table.source.root.preorder) :
    Maintains s.table (Unfilled st₀) (go (.code n (s.table.decl c).scope)) := by
  intro st hst
  have hlevel := h.level built
  have hclass : (st₀.scopes.frame (s.table.decl c).scope).cls ≠ none := by
    rw [h.grows.cls _ hlevel.stands.valid.lt, hlevel.own]
    nofun
  exact (h.code built hgo hran hn hst (hlevel.stands.grows (h.grows.trans hst.grows))).mono
    fun _ st' hvisited => hst.after hvisited (.inr hclass)

theorem BodyAt.visitNested (hgo : s.Works b go) (h : s.BodyAt (b + 1) c st₀) {body : Option Node}
    {parent : ScopeId} (hran : s.table.Ran (.cls (some ⟨c, none⟩) member body parent) t₁ t₂) :
    Maintains s.table (Unfilled st₀) ((s.table.classFor member).forM fun k => go (.body k)) := by
  intro st hst
  have hdepth : s.reserve c ≤ b := by
    have hroom := h.depth
    omega
  obtain ⟨k, hfound, hat, _⟩ := bodyAt_of_entered built hran.entered hdepth (h.grows.trans hst.grows)
    fun honce => .inr (h.within honce)
  rw [hfound]
  exact (hgo.body hat).mono fun _ st' hspares => hst.andThen hspares

theorem BodyAt.visitConstant (hown : s.table.HasOwnBodies) (hgo : s.Works b go)
    (h : s.BodyAt (b + 1) c st₀) (hn : member ∈ s.table.source.root.preorder)
    (hkind : MemberKind.ofKind member.kind = .constant) (hran : s.table.RanMember c member .constant) :
    Maintains s.table (Unfilled st₀) (s.visitMember go (s.table.decl c) member) := by
  obtain ⟨⟨t₁, t₂, harguments⟩, hbodies⟩ := hran
  unfold Subject.visitMember
  rw [hkind]
  refine Maintains.bind ?_ fun _ => ?_
  · unfold visitConstantArguments
    split
    · exact maintains_pure ()
    · rename_i arguments hchild
      obtain ⟨v, a, d, hcode⟩ := harguments.code_of_own (Option.mem_toList.mpr hchild)
      intro st hst
      refine Ends.bind ((h.openScope built "enum_constant" hst).mono fun sc st' hopened => ?_)
      obtain ⟨hst', hnew, hstands⟩ := hopened
      exact (h.code built hgo hcode (Node.mem_preorder_of_mem_children (Node.mem_of_child? hchild) hn)
        hst' hstands).mono fun _ st'' hvisited => hst'.after hvisited (.inl hnew)
  · cases hbody : member.child? "body" with
    | none =>
      rw [hown member hn hkind hbody]
      exact maintains_pure ()
    | some body =>
      obtain ⟨parent, a, d, hcls⟩ := hbodies body hbody
      exact h.visitNested built hgo hcls

theorem BodyAt.visitMember (hown : s.table.HasOwnBodies) (hgo : s.Works b go)
    (h : s.BodyAt (b + 1) c st₀) (hn : member ∈ s.table.source.root.preorder)
    (hran : s.table.RanMember c member (MemberKind.ofKind member.kind)) :
    Maintains s.table (Unfilled st₀) (s.visitMember go (s.table.decl c) member) := by
  cases hkind : MemberKind.ofKind member.kind <;> rw [hkind] at hran
  case field => exact h.visitField built hgo hn hkind hran
  case constant => exact h.visitConstant built hown hgo hn hkind hran
  all_goals
    unfold Subject.visitMember
    rw [hkind]
  case method => exact h.visitInnerMethod built hgo hn hran
  case block =>
    obtain ⟨v, t₁, t₂, hcode⟩ := hran
    exact h.inLevel built hgo hcode hn
  case staticBlock =>
    obtain ⟨v, t₁, t₂, hcode⟩ := hran
    refine maintains_forM fun part hpart => ?_
    have hstep : .visit part .here ∈ member.plan := by
      rw [Node.plan_of_staticBlock hkind]
      exact List.mem_map.mpr ⟨part, hpart, rfl⟩
    obtain ⟨u, a, d, hcode'⟩ := hcode.code.part_of_mem hstep
    exact h.inLevel built hgo hcode' (Node.mem_preorder_of_mem_children (List.mem_filter.mp hpart).1 hn)
  case nested =>
    obtain ⟨body, parent, t₁, t₂, hcls⟩ := hran
    exact h.visitNested built hgo hcls
  case other => exact maintains_pure ()

theorem BodyAt.visitBody (hown : s.table.HasOwnBodies) (hgo : s.Works b go) (h : s.BodyAt (b + 1) c st₀) :
    Ends s.table.Excluded (s.visitBody go c) st₀ fun _ st' => Unfilled st₀ st' := by
  obtain ⟨t₁, t₂, hran⟩ := ranMembers_of_ofSource built h.lt
  have hmembers : ∀ member ∈ ((s.table.decl c).body.map memberNodes).getD [],
      Maintains s.table (Unfilled st₀) (s.visitMember go (s.table.decl c) member) := by
    intro member hmember
    obtain ⟨a, d, hmemberRan⟩ := hran.member_of_mem hmember
    refine h.visitMember built hown hgo ?_ hmemberRan.ranMember
    cases hbody : (s.table.decl c).body with
    | none =>
      rw [hbody] at hmember
      cases hmember
    | some body =>
      rw [hbody] at hmember
      exact Node.mem_preorder_of_mem_memberNodes hmember ((sound_of_ofSource built).body c h.lt body hbody)
  exact maintains_forM hmembers st₀ (.refl _ _)

end

end

/-! ## the walk -/

section
variable {source : SourceUnit} (built : ofSource source = .ok s.table) (hfirst : s.exhaustive = false)
  (hown : s.table.HasOwnBodies)
include built hfirst hown

theorem Works.visitRegion {b : Nat} {go : Onward} (hgo : s.Works b go) :
    s.Works (b + 1) (s.visitRegion go) where
  code h := h.visitCode built hfirst hgo
  unnamed {n sc st} hunnamed _ := by
    show Ends s.table.Excluded (s.visitCode go n sc) st _
    unfold Subject.visitCode
    split
    · rw [Subject.reject_eq_note hfirst]
      exact ends_note s hfirst rfl n st _
    · rw [hunnamed]
      exact ends_pure rfl
  body h := h.visitBody built hown hgo

theorem works_walkRegion (depth : Nat) : s.Works depth (s.walkRegion depth) := by
  induction depth with
  | zero => exact ⟨fun h => absurd h.depth (Nat.not_lt_zero _), fun _ hno => absurd hno (Nat.lt_irrefl 0),
      fun h => absurd h.depth (by omega)⟩
  | succ depth ih =>
    rw [funext (walkRegion_succ s depth)]
    exact ih.visitRegion built hfirst hown

end

/-! ## wherever an inspection comes to -/

/-- the pass has been where the inspection is, or there is nothing to go over -/
def InStep (s : Subject) (b : Nat) : CodeRegion → WalkState → Prop
  | .code n sc, st => (n.named = false ∧ 0 < b) ∨
      ∃ owner sc' t₁ t₂, s.CodeAt b n sc st owner sc' t₁ t₂
  | .body c, st => s.BodyAt b c st

theorem InStep.ends {b : Nat} {go : Onward} {st : WalkState} (h : s.InStep b region st) (hgo : s.Works b go) :
    Ends s.table.Excluded (go region) st fun _ _ => True := by
  cases region with
  | code n sc =>
    rcases h with ⟨hunnamed, hroom⟩ | ⟨owner, sc', t₁, t₂, hat⟩
    · exact (hgo.unnamed hunnamed hroom).mono fun _ _ _ => trivial
    · exact (hgo.code hat).mono fun _ _ _ => trivial
  | body c => exact (hgo.body h).mono fun _ _ _ => trivial

/-- a way on that is cut where the inspection is out of step works as well as before -/
theorem Works.severed {b : Nat} {go go' : Onward} {met last : WalkState} {halt : Halt} (hgo : s.Works b go)
    (hcut : Severed go go' region met halt last) (hout : ¬ s.InStep b region met) : s.Works b go' := by
  have hsame : ∀ {r st}, s.InStep b r st → go' r st = go r st := fun hst =>
    hcut.elsewhere _ _ fun heq => hout (heq.1 ▸ heq.2 ▸ hst)
  refine ⟨fun h => ?_, fun hunnamed hroom => ?_, fun h => ?_⟩
  · exact Ends.of_eq (hsame (.inr ⟨_, _, _, _, h⟩)) (hgo.code h)
  · exact Ends.of_eq (hsame (.inl ⟨hunnamed, hroom⟩)) (hgo.unnamed hunnamed hroom)
  · exact Ends.of_eq (hsame h) (hgo.body h)

section
variable {source : SourceUnit} (built : ofSource source = .ok s.table) (hfirst : s.exhaustive = false)
  (hown : s.table.HasOwnBodies)
include built hfirst hown

/-- what a region in step hands on is in step: were it not, the way on could be cut there, and the walk would halt in a
way that it does not -/
theorem InStep.meets {b : Nat} {between : CodeRegion} {st met : WalkState} (h : s.InStep (b + 1) region st)
    (hmeets : Meets (fun go => s.visitRegion go region) (s.walkRegion b) st between met) :
    s.InStep b between met := by
  classical
  by_contra hout
  let cut : Onward := fun r a =>
    if r = between ∧ a = met then .error (.fault .nestedWithoutEnd) met else s.walkRegion b r a
  have hcut : Severed (s.walkRegion b) cut between met (.fault .nestedWithoutEnd) met :=
    ⟨fun _ _ hne => if_neg hne, if_pos ⟨rfl, rfl⟩⟩
  have hworks := ((works_walkRegion built hfirst hown b).severed hcut hout).visitRegion built hfirst hown
  exact (h.ends hworks).error _ _ (hmeets cut _ _ hcut) trivial

theorem Reaches.inStep {depth depth' : Nat} {region' : CodeRegion} {st st' : WalkState}
    (h : s.Reaches depth region st depth' region' st') (hst : s.InStep depth region st) :
    s.InStep depth' region' st' := by
  induction h with
  | here => exact hst
  | onward meets _ ih => exact ih (hst.meets built hfirst hown meets)

end

end Subject

/-! ## the inspection of a method -/

/-- the depth that an inspection starts with is enough for any code -/
theorem Subject.reserve_add_lt (s : Subject) (c : ClassId) (hn : n ∈ s.table.source.root.preorder) :
    s.reserve c + n.height < walkDepth s.table := by
  have hheight := Node.height_le_of_mem_preorder hn
  have hclasses : s.reserve c ≤ s.table.classes.size * (s.table.source.root.height + 2) :=
    Nat.mul_le_mul_right _ (Nat.sub_le _ _)
  rw [walkDepth, Nat.succ_mul]
  omega

namespace Table

variable {t : Table} {scopes : Scopes} {m : MethodId} {source : SourceUnit}

section
variable (built : ofSource source = .ok t) (hgrows : t.scopes.Grows scopes)
  (hmethod : (t.method m).isConstructor = false) {body : Node} (hbody : (t.method m).body = some body)
include built hgrows hmethod hbody

theorem codeAt_body : ∃ scope opened,
    scopes.childDeclaring t.source (t.decl m.owner).scope s!"method_{(t.method m).name}"
      (((t.method m).parameters.map Node.parameterNames).getD []) = .ok (scope, opened) ∧
    ∃ v t₁ t₂, Subject.CodeAt { table := t, method := m } (Subject.walkDepth t) body scope
      { scopes := opened } ⟨m.owner, some m⟩ v t₁ t₂ := by
  obtain ⟨node, hnode, hchild⟩ := Option.bind_eq_some_iff.mp hbody
  have hdeclared := (sound_of_ofSource built).declaredBy hnode
  have hkind : node.kind = "method_declaration" := by
    rw [hdeclared.isConstructor] at hmethod
    simpa using hmethod
  have hcoded : t.coded m = some node := by
    rw [coded, Method.coded, hnode, Option.filter_some, hchild]
    rfl
  have hnames : ((t.method m).parameters.map Node.parameterNames).getD [] = node.methodNames := by
    rw [Method.parameters, hnode]
    rfl
  obtain ⟨body', v, label, components, s, a, d, hbody', hplain, hlevel, hclosed, hopened, hran⟩ :=
    ranMethod_of_ofSource built hcoded
  cases hchild.symm.trans hbody'
  cases hplain hkind
  have hstays : a.Stays t := (hlevel.openMethod hclosed hopened (some m) []).1.stays.trans hran.stays
  have hclass := hlevel.stays hstays
  rw [hnames]
  rw [← hstays.source] at hopened
  obtain ⟨scope, opened, hopen⟩ := Scopes.childDeclaring_of_ok hopened scopes (t.decl m.owner).scope
    s!"method_{(t.method m).name}"
  have hopening := (hclass.stands.grows hgrows).childDeclaring hopen
  have htree : body ∈ t.source.root.preorder :=
    Node.mem_preorder_of_mem_children (Node.mem_of_child? hchild) hdeclared.inTree
  refine ⟨scope, opened, hopen, v, _, d, hran, ?_, ?_, hgrows.trans hopening.grows, hopening.stands,
    fun _ => .inl rfl, fun _ => ?_⟩
  · exact htree
  · exact Subject.reserve_add_lt { table := t, method := m } m.owner htree
  · have hown : (scopes.frame (t.decl m.owner).scope).cls = some m.owner := by
      rw [hgrows.cls _ hclass.stands.valid.lt]
      exact hclass.own
    refine Scopes.twin_childDeclaring (hclass.stands.valid.grows hgrows) hlevel.stands.valid ?_ hopen hopened
    rw [Scopes.blocks_of_class hown, Scopes.blocks_of_class hlevel.own]

end

section
variable (built : ofSource source = .ok t) (hown : t.HasOwnBodies) (reached : t.ScopesReached scopes)
  (hmethod : (t.method m).isConstructor = false)
include built hown reached hmethod

theorem Inspects.inStep {depth : Nat} {region : Subject.CodeRegion} {st : WalkState}
    (h : t.Inspects scopes m depth region st) :
    Subject.InStep { table := t, method := m } depth region st := by
  obtain ⟨body, scope, opened, hbody, hopen, hreaches⟩ := h
  obtain ⟨scope', opened', hopen', v, t₁, t₂, hat⟩ := codeAt_body built reached.grows hmethod hbody
  cases hopen.symm.trans hopen'
  exact hreaches.inStep built rfl hown (.inr ⟨_, v, t₁, t₂, hat⟩)

/-- the classification of a method ends in a verdict, and not because a class is missing, unless a text cannot be read -/
theorem classify_ends :
    (∀ finding s', t.classify scopes m = .ok (.access finding, s') → finding.reason.isUnindexed = false) ∧
      ∀ fault, t.classify scopes m = .error fault → ¬ t.source.IsLegible := by
  cases hbody : (t.method m).body with
  | none =>
    rw [classify, hbody]
    refine ⟨fun finding s' h => ?_, fun fault h => ?_⟩ <;> cases h
    rfl
  | some body =>
    obtain ⟨scope, opened, hopen, v, t₁, t₂, hat⟩ := codeAt_body built reached.grows hmethod hbody
    have hends := (Subject.works_walkRegion built rfl hown _).code hat
    rw [classify_eq hopen hbody]
    cases hwalk : Subject.walkRegion { table := t, method := m } (Subject.walkDepth t) (.code body scope)
        { scopes := opened } with
    | ok _ st => refine ⟨fun _ _ h => ?_, fun _ h => ?_⟩ <;> cases h
    | error halt st =>
      have hhalt := hends.error _ _ hwalk
      cases halt with
      | access found =>
        refine ⟨fun _ _ h => ?_, fun _ h => ?_⟩ <;> cases h
        exact Bool.eq_false_iff.mpr hhalt
      | fault found =>
        refine ⟨fun _ _ h => ?_, fun _ h hlegible => hhalt ?_⟩ <;> cases h
        cases found with
        | nestedWithoutEnd => trivial
        | syntaxError | undecodable => exact hlegible

end

end Table

end StaticPromotion
