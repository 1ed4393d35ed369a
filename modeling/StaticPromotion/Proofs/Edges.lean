import StaticPromotion.Proofs.Composition
import StaticPromotion.Proofs.Opacity

/-!
# Where edges come from

An edge in a verdict was added by some call without an object that the inspection came to. The walk of any other node adds
no edge by itself: if one is there after it that was not there before, then it was added in a part that the walk handed on.

* `Gains e x st`           the walk runs through and adds an edge;
* `Relays e walk`          if the walk adds it, then in a region that it meets;
* `compositional_relays`   so do all walks but the calls; `gains_visitInvocation` says what those do;
* `gains_checkCall`        what a call adds is an overload that no subclass can replace, found in a foreign class;
* `exists_call_of_gains`   the call that an edge was added by, from wherever the walk starts;
* `Table.exists_call_of_edge`   the same for the edges of a verdict.
-/

namespace StaticPromotion

open Subject

section
variable {α β : Type} {e : MethodId} {go : Onward} {st : WalkState} {x : Walk α}

def Gains (e : MethodId) (x : Walk α) (st : WalkState) : Prop :=
  ∃ a st', x st = .ok a st' ∧ e ∈ st'.edges ∧ e ∉ st.edges

structure Relays (e : MethodId) (walk : Onward → Walk α) : Prop where
  steady : Steady walk
  relays : ∀ go st, Gains e (walk go) st →
    ∃ region met, Meets walk go st region met ∧ Gains e (go region) met

/-! ## one after the other -/

theorem Steady.bind {walk : Onward → Walk α} {next : Onward → α → Walk β} (h : Steady walk)
    (hnext : ∀ a, Steady fun go => next go a) : Steady fun go => walk go >>= next go := by
  intro go go' region met halt last hsevered st
  show (walk go' >>= next go') st = (walk go >>= next go) st ∨ (walk go' >>= next go') st = _
  rcases h go go' region met halt last hsevered st with hsame | hcut
  · cases hwalk : walk go st with
    | ok a st₁ =>
      rw [Run.bind_of_ok (hsame.trans hwalk), Run.bind_of_ok hwalk]
      exact hnext a go go' region met halt last hsevered st₁
    | error halt' st₁ =>
      rw [Run.bind_of_error (hsame.trans hwalk), Run.bind_of_error hwalk]
      exact .inl rfl
  · exact .inr (Run.bind_of_error hcut)

theorem steady_go (region : CodeRegion) : Steady fun go => go region := by
  intro go go' region' met halt last hsevered st
  by_cases hcut : region = region' ∧ st = met
  · obtain ⟨rfl, rfl⟩ := hcut
    exact .inr hsevered.there
  · exact .inl (hsevered.elsewhere region st hcut)

theorem gains_bind {f : α → Walk β} (h : Gains e (x >>= f) st) :
    Gains e x st ∨ ∃ a st₁, x st = .ok a st₁ ∧ Gains e (f a) st₁ := by
  obtain ⟨b, st', hrun, hnew, hold⟩ := h
  obtain ⟨a, st₁, hfirst, hsecond⟩ := Run.of_bind_ok hrun
  by_cases hbetween : e ∈ st₁.edges
  · exact .inl ⟨a, st₁, hfirst, hbetween, hold⟩
  · exact .inr ⟨a, st₁, hfirst, b, st', hsecond, hnew, hbetween⟩

theorem Relays.bind {walk : Onward → Walk α} {next : Onward → α → Walk β} (h : Relays e walk)
    (hnext : ∀ a, Relays e fun go => next go a) : Relays e fun go => walk go >>= next go := by
  refine ⟨h.steady.bind fun a => (hnext a).steady, fun go st hgains => ?_⟩
  rcases gains_bind hgains with hfirst | ⟨a, st₁, hfirst, hsecond⟩
  · obtain ⟨region, met, hmeets, hmet⟩ := h.relays go st hfirst
    exact ⟨region, met, hmeets.bind, hmet⟩
  · obtain ⟨region, met, hmeets, hmet⟩ := (hnext a).relays go st₁ hsecond
    exact ⟨region, met, hmeets.after h.steady hfirst, hmet⟩

theorem Relays.not_gains (h : Relays e fun _ => x) : ¬ Gains e x st := by
  intro hgains
  obtain ⟨region, met, _, _, _, hrun, _⟩ := h.relays (fun _ => throw (.fault .nestedWithoutEnd)) st hgains
  cases hrun

theorem relays_of_edges (h : ∀ st a st', x st = .ok a st' → st'.edges = st.edges) :
    Relays e fun _ => x := by
  refine ⟨steady_const x, fun go st hgains => ?_⟩
  obtain ⟨a, st', hrun, hnew, hold⟩ := hgains
  rw [h st a st' hrun] at hnew
  exact absurd hnew hold

end

theorem compositional_relays (s : Subject) (e : MethodId) :
    s.Compositional s.exhaustive fun walk _ => Relays e walk where
  plain hx := by
    refine relays_of_edges fun st a st' hrun => ?_
    have hedges := (hx st).1
    rwa [hrun] at hedges
  note reason n := by
    refine relays_of_edges fun st a st' hrun => ?_
    unfold Subject.note at hrun
    split at hrun
    · cases hrun
      rfl
    · cases hrun
  go region := by
    refine ⟨steady_go region, fun go st hgains => ⟨region, st, meets_go, hgains⟩⟩
  bind h hnext := h.bind hnext

namespace Subject

variable {s : Subject} {e : MethodId} {go : Onward} {n : Node} {scope : ScopeId} {st : WalkState}

/-! ## calls -/

/-- what becomes an edge when it is called -/
def isEdge (m : Method) : Bool :=
  !m.isStatic && !m.isConstructor && m.isNonOverridable

/-- what is done about one method that a call may bind to -/
def checkOverload (s : Subject) (n : Node) (callee : MethodId) : Walk Unit :=
  let m := s.table.method callee
  if m.isStatic then pure ()
  else if m.isNonOverridable && !m.isConstructor then addEdge callee
  else s.note (.callsInstanceMethod (s.table.qualifiedName callee)) n

theorem checkCall_methods {via : ClassId} (hforeign : s.isForeign (some via) = true)
    (overloads : List MethodId) (shadow : Option ClassId) (name : String) :
    s.checkCall (.methods overloads via shadow) name n =
      (s.noteInherited shadow (.mayBeInherited name) n >>= fun _ => overloads.forM (s.checkOverload n)) :=
  if_pos hforeign

theorem gains_addEdge {callee : MethodId} (h : Gains e (addEdge callee) st) : e = callee := by
  obtain ⟨_, st', hrun, hnew, hold⟩ := h
  cases hrun
  dsimp only at hnew
  split at hnew
  · exact absurd hnew hold
  · rcases List.mem_append.mp hnew with hmem | hmem
    · exact absurd hmem hold
    · exact List.mem_singleton.mp hmem

theorem gains_checkOverload {callee : MethodId} (h : Gains e (s.checkOverload n callee) st) :
    e = callee ∧ isEdge (s.table.method callee) = true := by
  have hrelays := compositional_relays s e
  by_cases hstatic : (s.table.method callee).isStatic = true
  · rw [checkOverload, if_pos hstatic] at h
    exact absurd h (hrelays.pure ()).not_gains
  · rw [checkOverload, if_neg hstatic] at h
    split at h
    · rename_i hedge
      rw [Bool.not_eq_true] at hstatic
      rw [isEdge, hstatic, Bool.not_false, Bool.true_and, Bool.and_comm]
      exact ⟨gains_addEdge h, hedge⟩
    · exact absurd h (hrelays.note _ n).not_gains

theorem gains_overloads {overloads : List MethodId} (h : Gains e (overloads.forM (s.checkOverload n)) st) :
    e ∈ overloads ∧ isEdge (s.table.method e) = true := by
  induction overloads generalizing st with
  | nil => exact absurd h ((compositional_relays s e).pure ()).not_gains
  | cons callee overloads ih =>
    rcases gains_bind h with hfirst | ⟨_, st₁, _, hrest⟩
    · obtain ⟨rfl, hedge⟩ := gains_checkOverload hfirst
      exact ⟨List.mem_cons_self, hedge⟩
    · obtain ⟨hmem, hedge⟩ := ih hrest
      exact ⟨List.mem_cons_of_mem _ hmem, hedge⟩

theorem gains_checkCall {ref : Reference} {name : String} (h : Gains e (s.checkCall ref name n) st) :
    ∃ overloads via shadow, ref = .methods overloads via shadow ∧ s.isForeign (some via) = true ∧
      e ∈ overloads ∧ isEdge (s.table.method e) = true := by
  have hrelays := compositional_relays s e
  cases ref with
  | type | localName | field => exact absurd h (hrelays.note _ n).not_gains
  | unresolved _ atClass =>
    exact absurd h (hrelays.noteInherited atClass (fun _ => .callsInherited name) n).not_gains
  | staticImport _ shadow =>
    exact absurd h (hrelays.noteInherited shadow (.mayBeInherited name) n).not_gains
  | methods overloads via shadow =>
    by_cases hforeign : s.isForeign (some via) = true
    · rw [checkCall_methods hforeign] at h
      refine ⟨overloads, via, shadow, rfl, hforeign, ?_⟩
      rcases gains_bind h with hnote | ⟨_, st₁, _, hoverloads⟩
      · exact absurd hnote (hrelays.noteInherited shadow _ n).not_gains
      · exact gains_overloads hoverloads
    · have hinside : s.checkCall (.methods overloads via shadow) name n = pure () := if_neg hforeign
      rw [hinside] at h
      exact absurd h (hrelays.pure ()).not_gains

/-- the call at a node, of whatever its name denotes there, adds the edge -/
structure CallGains (s : Subject) (e : MethodId) (n : Node) (scope : ScopeId) (name : String)
    (st : WalkState) : Prop where
  noObject : n.child? "object" = none
  text : s.table.source.optionalText (n.child? "name") = .ok name
  gains : Gains e (s.checkCall (s.table.resolveMethod st.scopes scope name
    (Node.argumentCount (n.child? "arguments"))) name n) st

theorem gains_visitInvocation (h : Gains e (s.visitInvocation go n scope) st) :
    (∃ name, s.CallGains e n scope name st) ∨
      ∃ region met, Meets (fun go => s.visitInvocation go n scope) go st region met ∧ Gains e (go region) met := by
  have hrelays := compositional_relays s e
  cases hobject : n.child? "object" with
  | some object =>
    refine .inr ((hrelays.visitInvocation n scope fun hnone => ?_).relays go st h)
    rw [hobject] at hnone
    cases hnone
  | none =>
    rcases gains_bind h with hname | ⟨name, st₁, hname, hrest⟩
    · exact absurd hname (hrelays.plain (s.plain_optionalText _)).not_gains
    obtain ⟨htext, rfl⟩ := lift_ok hname
    rcases gains_bind hrest with hcallee | ⟨_, st₂, hcallee, harguments⟩
    · simp only [visitCallee, hobject] at hcallee
      exact .inl ⟨name, hobject, htext, hcallee⟩
    · have hlast : Relays e fun go => (n.child? "arguments").forM fun arguments =>
          go (.code arguments scope) :=
        @Compositional.optionForM _ _ _ hrelays _ _ _ (fun go arguments => go (.code arguments scope))
          fun _ => hrelays.go _
      obtain ⟨region, met, hmeets, hmet⟩ := hlast.relays go st₂ harguments
      refine .inr ⟨region, met, ?_, hmet⟩
      refine Meets.after (steady_const _) hname ?_
      exact Meets.after (uniform_visitCallee s n scope name).steady hcallee hmeets

/-! ## from the node to the whole -/

theorem gains_visitCode (h : Gains e (s.visitCode go n scope) st) :
    (n.isBroken = false ∧ n.named = true ∧ n.construct = .invocation ∧
        ∃ name, s.CallGains e n scope name st) ∨
      ∃ region met, Meets (fun go => s.visitCode go n scope) go st region met ∧ Gains e (go region) met := by
  have hrelays := compositional_relays s e
  by_cases hcall : n.isBroken = false ∧ n.named = true ∧ n.construct = .invocation
  · obtain ⟨hwhole, hnamed, hconstruct⟩ := hcall
    have heq : (fun go => s.visitCode go n scope) = fun go => s.visitInvocation go n scope := by
      funext go
      rw [visitCode_eq hwhole hnamed, hconstruct]
      rfl
    rw [heq]
    rw [congrFun heq go] at h
    rcases gains_visitInvocation h with hown | hpart
    · exact .inl ⟨hwhole, hnamed, hconstruct, hown⟩
    · exact .inr hpart
  · -- what is no readable invocation checks no call, so the rule about calls is not needed
    refine .inr (Relays.relays ?_ go st h)
    by_cases hbroken : n.isBroken = true
    · simp only [visitCode, if_pos hbroken]
      exact hrelays.reject _ n scope
    · by_cases hnamed : n.named = true
      · refine hrelays.visitCode n scope fun hconstruct => absurd ⟨?_, hnamed, hconstruct⟩ hcall
        exact Bool.eq_false_iff.mpr hbroken
      · rw [Bool.not_eq_true] at hnamed
        simp only [visitCode, if_neg hbroken, hnamed, Bool.not_false, if_true]
        exact hrelays.pure ()

theorem exists_call_of_gains {depth : Nat} {region : CodeRegion}
    (h : Gains e (s.walkRegion depth region) st) :
    ∃ depth' n scope name st', s.Reaches depth region st (depth' + 1) (.code n scope) st' ∧
      n.isBroken = false ∧ n.named = true ∧ n.construct = .invocation ∧ s.CallGains e n scope name st' := by
  induction depth generalizing region st with
  | zero =>
    obtain ⟨_, _, hrun, _⟩ := h
    cases hrun
  | succ depth ih =>
    rw [walkRegion_succ] at h
    -- here, or in a region that is met
    have hcases : (∃ n scope name, region = .code n scope ∧ n.isBroken = false ∧ n.named = true ∧
          n.construct = .invocation ∧ s.CallGains e n scope name st) ∨
        ∃ between met, Meets (fun go => s.visitRegion go region) (s.walkRegion depth) st between met ∧
          Gains e (s.walkRegion depth between) met := by
      cases region with
      | code n scope =>
        rcases gains_visitCode h with ⟨hwhole, hnamed, hconstruct, name, hcall⟩ | hmet
        · exact .inl ⟨n, scope, name, rfl, hwhole, hnamed, hconstruct, hcall⟩
        · exact .inr hmet
      | body c => exact .inr (((compositional_relays s e).visitBody c).relays _ st h)
    rcases hcases with ⟨n, scope, name, rfl, hcall⟩ | ⟨between, met, hmeets, hmet⟩
    · exact ⟨depth, n, scope, name, st, .here _ _ _, hcall⟩
    · obtain ⟨depth', n, scope, name, st', hreaches, hcall⟩ := ih hmet
      exact ⟨depth', n, scope, name, st', .onward hmeets hreaches, hcall⟩

end Subject

/-! ## edges of a verdict -/

theorem Table.exists_call_of_edge {t : Table} {scopes s' : Scopes} {m e : MethodId}
    {edges : List MethodId} (clear : t.classify scopes m = .ok (.clear edges, s')) (he : e ∈ edges) :
    isEdge (t.method e) = true ∧
      ∃ arguments n name scope st overloads via shadow,
        t.Evaluates scopes m (.call arguments) n name scope st ∧
        t.resolveMethod st.scopes scope name arguments = .methods overloads via shadow ∧
        e ∈ overloads ∧ t.declaredWithin via m = false := by
  obtain ⟨body, scope, opened, st, hbody, hopen, hwalk, rfl⟩ := opens_of_clear clear
  obtain ⟨depth, n, sc, name, met, hreaches, hwhole, hnamed, hconstruct, hcall⟩ :=
    exists_call_of_gains ⟨_, _, hwalk, he, List.not_mem_nil⟩
  obtain ⟨overloads, via, shadow, href, hforeign, hmem, hedge⟩ := gains_checkCall hcall.gains
  have hinspects : t.Inspects scopes m (depth + 1) (.code n sc) met :=
    ⟨body, scope, opened, hbody, hopen, hreaches⟩
  exact ⟨hedge, _, n, name, sc, met, overloads, via, shadow,
    .call hinspects hwhole hnamed hconstruct hcall.noObject hcall.text, href, hmem,
    (isForeign_some _ via).mp hforeign⟩

end StaticPromotion
