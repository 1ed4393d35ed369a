import StaticPromotion.Proofs.Growth

/-!
# Where an inspection comes to

The walk of a region hands parts of it on, to be walked in turn. That it hands a region on in some state is said without
looking into the walk: were the way on to halt just there, for whatever cause, the walk would halt with that.

* `Severed`           two ways on that differ at one point, where the second halts;
* `Meets`             a walk hands a region on in a state;
* `Steady`            a walk that does the same with a severed way on until it gets to the cut. All walks do;
* `Includes`          a walk that runs through has a part that runs through, and meets what the part meets;
* `Subject.Reaches`   a region is met, perhaps through others, from another one. `Reaches.halts` and `Reaches.succeeds`: a halt
                      there is the halt of the whole, and if the whole does not halt then nothing in it does. `Reaches.keeps`:
                      invariants of the scopes still hold there;
* `Table.Inspects`    a region is reached in the inspection of a method, and so decides about the verdict.
-/

namespace StaticPromotion

variable {halt : Halt} {P : Scopes → Prop}

open Subject

/-! ## cutting a way on -/

structure Severed (go go' : Onward) (region : CodeRegion) (met : WalkState) (halt : Halt)
    (last : WalkState) : Prop where
  elsewhere : ∀ r st, ¬(r = region ∧ st = met) → go' r st = go r st
  there : go' region met = .error halt last

def Meets {α : Type} (walk : Onward → Walk α) (go : Onward) (st : WalkState) (region : CodeRegion)
    (met : WalkState) : Prop :=
  ∀ go' halt last, Severed go go' region met halt last → walk go' st = .error halt last

/-- a severed way on makes no difference before the cut -/
def Steady {α : Type} (walk : Onward → Walk α) : Prop :=
  ∀ go go' region met halt last, Severed go go' region met halt last →
    ∀ st, walk go' st = walk go st ∨ walk go' st = .error halt last

section
variable {α β : Type} {go : Onward} {st st₁ met : WalkState} {region : CodeRegion}

theorem meets_go : Meets (fun go => go region) go st region st :=
  fun _ _ _ hsevered => hsevered.there

theorem Meets.bind {walk : Onward → Walk α} {next : Onward → α → Walk β} (h : Meets walk go st region met) :
    Meets (fun go => walk go >>= next go) go st region met :=
  fun go' halt last hsevered => Run.bind_of_error (h go' halt last hsevered)

theorem Meets.after {walk : Onward → Walk α} {next : Onward → α → Walk β} {a : α} (hwalk : Steady walk)
    (hfirst : walk go st = .ok a st₁) (h : Meets (fun go => next go a) go st₁ region met) :
    Meets (fun go => walk go >>= next go) go st region met := by
  intro go' halt last hsevered
  show (walk go' >>= next go') st = _
  rcases hwalk go go' region met halt last hsevered st with hsame | hcut
  · rw [Run.bind_of_ok (hsame.trans hfirst)]
    exact h go' halt last hsevered
  · exact Run.bind_of_error hcut

theorem Meets.succeeds {walk : Onward → Walk α} {a : α} (h : Meets walk go st region met)
    (hwalk : walk go st = .ok a st₁) : ∃ last, go region met = .ok () last := by
  cases hgo : go region met with
  | ok _ last => exact ⟨last, rfl⟩
  | error halt last =>
    have hcut := h go halt last ⟨fun _ _ _ => rfl, hgo⟩
    rw [hwalk] at hcut
    cases hcut

theorem steady_const (x : Walk α) : Steady fun _ => x :=
  fun _ _ _ _ _ _ _ _ => .inl rfl

end

/-! ## all walks are steady -/

theorem Scopes.invariant_true : Scopes.Invariant fun _ => True where
  child _ _ _ _ := trivial
  declare _ _ _ _ := trivial
  declareType _ _ _ _ _ := trivial

/-- equal states, until a given halt -/
def Lockstep.until (t : Table) (halt : Halt) (last : WalkState) : Lockstep t :=
  .beside Scopes.invariant_true.kept (admission_all t) fun k st => k = halt ∧ st = last

theorem Lockstep.until_state {t : Table} {last a b : WalkState} (h : (Lockstep.until t halt last).state a b) :
    b = a := by
  obtain ⟨⟨hscopes, _⟩, hedges, hfindings⟩ := h
  cases a
  cases b
  simp only at hscopes hedges hfindings
  rw [hscopes, hedges, hfindings]

theorem Severed.onwards {go go' : Onward} {region : CodeRegion} {met last : WalkState}
    (h : Severed go go' region met halt last) (t : Table) :
    (Lockstep.until t halt last).Onwards go go' := by
  have hall : ∀ r, (Lockstep.until t halt last).Runs (go r) (go' r) := by
    intro r a b hst
    rw [Lockstep.until_state hst]
    by_cases hcut : r = region ∧ a = met
    · rw [hcut.1, hcut.2, h.there]
      cases go region met with
      | ok => exact ⟨rfl, rfl⟩
      | error => exact .inr ⟨rfl, rfl⟩
    · rw [h.elsewhere r a hcut]
      cases go r a with
      | ok => exact ⟨trivial, ⟨rfl, trivial⟩, rfl, rfl⟩
      | error => exact .inl ⟨rfl, ⟨rfl, trivial⟩, rfl, rfl⟩
  exact ⟨fun n sc _ => hall (.code n sc), fun c _ => hall (.body c)⟩

theorem Uniform.steady {t : Table} {walk : Onward → Walk Unit} (h : Uniform t walk) : Steady walk := by
  intro go go' region met halt last hsevered st
  have hrun := h (Lockstep.until t halt last) (fun _ => rfl) (fun _ => trivial) (fits_of_free fun _ => trivial)
    go go' (hsevered.onwards t) st st ⟨⟨rfl, trivial⟩, rfl, rfl⟩
  cases hx : walk go st with
  | ok a st₁ =>
    cases hy : walk go' st with
    | ok b st₂ =>
      rw [hx, hy] at hrun
      rw [Lockstep.until_state hrun.2]
      exact .inl rfl
    | error k st₂ =>
      rw [hx, hy] at hrun
      obtain ⟨rfl, rfl⟩ := hrun
      exact .inr rfl
  | error k st₁ =>
    cases hy : walk go' st with
    | ok b st₂ =>
      rw [hx, hy] at hrun
      exact hrun.elim
    | error k' st₂ =>
      rw [hx, hy] at hrun
      rcases hrun with ⟨rfl, hst⟩ | ⟨rfl, rfl⟩
      · rw [Lockstep.until_state hst]
        exact .inl rfl
      · exact .inr rfl

theorem Meets.keeps {t : Table} (hP : Scopes.Invariant P) {walk : Onward → Walk Unit}
    (huniform : Uniform t walk) {go : Onward}
    (hgo : (Lockstep.keeping hP.kept (admission_all t)).Onwards go go) {st met : WalkState}
    {region : CodeRegion} (h : Meets walk go st region met) (hst : P st.scopes) : P met.scopes := by
  classical
  -- a way on that halts there, in the very state that it is met in
  let halt : Halt := .fault .nestedWithoutEnd
  let cut : Onward := fun r a => if r = region ∧ a = met then .error halt met else go r a
  have hall : ∀ r, (Lockstep.keeping hP.kept (admission_all t)).Runs (go r) (go r) →
      (Lockstep.keeping hP.kept (admission_all t)).Runs (cut r) (cut r) := by
    intro r hr a b hab
    have hsame : b = a := by
      obtain ⟨⟨hscopes, _⟩, hedges, hfindings⟩ := hab
      cases a
      cases b
      simp only at hscopes hedges hfindings
      rw [hscopes, hedges, hfindings]
    subst hsame
    by_cases hcut : r = region ∧ b = met
    · simp only [cut, if_pos hcut]
      rw [← hcut.2]
      exact .inl ⟨rfl, hab⟩
    · simp only [cut, if_neg hcut]
      exact hr b b hab
  have honwards : (Lockstep.keeping hP.kept (admission_all t)).Onwards cut cut :=
    ⟨fun n sc h => hall _ (hgo.code n sc h), fun c h => hall _ (hgo.body c h)⟩
  have hwalk := h cut halt met ⟨fun _ _ hne => if_neg hne, if_pos ⟨rfl, rfl⟩⟩
  have hruns := huniform _ (fun _ => rfl) (fun _ => trivial) (fits_of_free fun _ => trivial) cut cut honwards
  exact (Lockstep.keeping_final hruns hst).2 halt met hwalk

/-! ## parts of a walk that runs through -/

/-- in the walk from `st`, the part is walked from `st₁` and runs through -/
structure Includes {α β : Type} (go : Onward) (walk : Onward → Walk α) (st : WalkState)
    (part : Onward → Walk β) (st₁ : WalkState) : Prop where
  ran : ∃ b st₂, part go st₁ = .ok b st₂
  grows : st.scopes.Grows st₁.scopes
  meets : ∀ region met, Meets part go st₁ region met → Meets walk go st region met

section
variable {α β γ : Type} {go : Onward} {st st₁ st₂ : WalkState} {walk : Onward → Walk α}

theorem Includes.of_eq {part : Onward → Walk α} (heq : ∀ go, walk go = part go) {a : α}
    (h : part go st = .ok a st₁) : Includes go walk st part st := by
  refine ⟨⟨a, st₁, h⟩, .refl _, fun region met hmeets => ?_⟩
  rw [funext heq]
  exact hmeets

theorem Includes.trans {part : Onward → Walk β} {piece : Onward → Walk γ} (h : Includes go walk st part st₁)
    (h' : Includes go part st₁ piece st₂) : Includes go walk st piece st₂ :=
  ⟨h'.ran, h.grows.trans h'.grows, fun region met hmeets => h.meets _ _ (h'.meets region met hmeets)⟩

theorem Includes.first {next : Onward → α → Walk β} {b : β} (h : (walk go >>= next go) st = .ok b st₁) :
    Includes go (fun go => walk go >>= next go) st walk st := by
  obtain ⟨a, st₂, hfirst, _⟩ := Run.of_bind_ok h
  exact ⟨⟨a, st₂, hfirst⟩, .refl _, fun _ _ hmeets => hmeets.bind⟩

theorem Includes.second {next : Onward → α → Walk β} {a : α} {b : β} (hwalk : Steady walk)
    (hfirst : walk go st = .ok a st₁) (hgrows : st.scopes.Grows st₁.scopes) (h : next go a st₁ = .ok b st₂) :
    Includes go (fun go => walk go >>= next go) st (fun go => next go a) st₁ :=
  ⟨⟨b, st₂, h⟩, hgrows, fun _ _ hmeets => hmeets.after hwalk hfirst⟩

end

/-! ## reaching a region -/

namespace Subject

/-- one level of the walk -/
def visitRegion (s : Subject) (go : Onward) : CodeRegion → Walk Unit
  | .code n scope => s.visitCode go n scope
  | .body c => s.visitBody go c

theorem walkRegion_succ (s : Subject) (depth : Nat) (region : CodeRegion) :
    s.walkRegion (depth + 1) region = s.visitRegion (s.walkRegion depth) region := by
  cases region <;> rfl

theorem uniform_visitRegion (s : Subject) (region : CodeRegion) :
    Uniform s.table fun go => s.visitRegion go region := by
  cases region with
  | code n sc => exact uniform_visitCode s n sc
  | body c => exact uniform_visitBody s c

/-- the walk of the first region in the first state comes to the second one -/
inductive Reaches (s : Subject) :
    Nat → CodeRegion → WalkState → Nat → CodeRegion → WalkState → Prop
  | here (depth : Nat) (region : CodeRegion) (st : WalkState) : Reaches s depth region st depth region st
  | onward {depth depth' : Nat} {region between region' : CodeRegion} {st met st' : WalkState}
      (meets : Meets (fun go => s.visitRegion go region) (s.walkRegion depth) st between met)
      (reaches : Reaches s depth between met depth' region' st') :
      Reaches s (depth + 1) region st depth' region' st'

variable {s : Subject} {depth depth' : Nat} {region region' : CodeRegion} {st st' last : WalkState}

theorem Reaches.halts (h : s.Reaches depth region st depth' region' st')
    (hhalt : s.walkRegion depth' region' st' = .error halt last) :
    s.walkRegion depth region st = .error halt last := by
  induction h with
  | here => exact hhalt
  | onward meets _ ih =>
    rw [walkRegion_succ]
    exact meets _ halt last ⟨fun _ _ _ => rfl, ih hhalt⟩

theorem Reaches.succeeds (h : s.Reaches depth region st depth' region' st')
    (hran : s.walkRegion depth region st = .ok () last) :
    ∃ last', s.walkRegion depth' region' st' = .ok () last' := by
  induction h generalizing last with
  | here => exact ⟨last, hran⟩
  | onward meets _ ih =>
    rw [walkRegion_succ] at hran
    obtain ⟨last', hmet⟩ := meets.succeeds hran
    exact ih hmet

theorem Reaches.keeps (hP : Scopes.Invariant P) (h : s.Reaches depth region st depth' region' st')
    (hst : P st.scopes) : P st'.scopes := by
  induction h with
  | here => exact hst
  | onward meets _ ih =>
    exact ih (meets.keeps hP (uniform_visitRegion s _) (Lockstep.onwards_walkRegion _) hst)

theorem Reaches.trans {depth₂ : Nat} {region₂ : CodeRegion} {st₂ : WalkState}
    (h : s.Reaches depth region st depth' region' st')
    (h' : s.Reaches depth' region' st' depth₂ region₂ st₂) :
    s.Reaches depth region st depth₂ region₂ st₂ := by
  induction h with
  | here => exact h'
  | onward meets _ ih => exact .onward meets (ih h')

end Subject

/-! ## inspections -/

namespace Table

/-- the inspection of `m`, with the scopes as they are then, comes to a region -/
def Inspects (t : Table) (scopes : Scopes) (m : MethodId) (depth : Nat) (region : CodeRegion)
    (st : WalkState) : Prop :=
  ∃ body scope opened, (t.method m).body = some body ∧
    scopes.childDeclaring t.source (t.decl m.owner).scope s!"method_{(t.method m).name}"
      (((t.method m).parameters.map Node.parameterNames).getD []) = .ok (scope, opened) ∧
    Reaches { table := t, method := m } (walkDepth t) (.code body scope) { scopes := opened }
      depth region st

variable {t : Table} {scopes scopes' : Scopes} {m : MethodId} {depth : Nat} {region : CodeRegion}
  {st last : WalkState}

section
variable {body : Node} {scope : ScopeId} {opened : Scopes}
  (hopen : scopes.childDeclaring t.source (t.decl m.owner).scope s!"method_{(t.method m).name}"
    (((t.method m).parameters.map Node.parameterNames).getD []) = .ok (scope, opened))
include hopen

theorem walkMethod_eq : walkMethod { table := t, method := m } body { scopes } =
    walkRegion { table := t, method := m } (walkDepth t) (.code body scope) { scopes := opened } := by
  show (lift _ >>= _) _ = _
  rw [hopen]
  rfl

theorem classify_eq (hbody : (t.method m).body = some body) :
    t.classify scopes m = conclude (walkRegion { table := t, method := m } (walkDepth t)
      (.code body scope) { scopes := opened }) := by
  rw [classify, hbody, ← walkMethod_eq hopen]
  rfl

end

theorem opens_of_clear {edges : List MethodId} (h : t.classify scopes m = .ok (.clear edges, scopes')) :
    ∃ body scope opened last, (t.method m).body = some body ∧
      scopes.childDeclaring t.source (t.decl m.owner).scope s!"method_{(t.method m).name}"
        (((t.method m).parameters.map Node.parameterNames).getD []) = .ok (scope, opened) ∧
      walkRegion { table := t, method := m } (walkDepth t) (.code body scope) { scopes := opened } = .ok () last ∧
      last.edges = edges := by
  obtain ⟨body, last, hbody, hwalk, hedges, _⟩ := walk_of_clear h
  cases hopen : scopes.childDeclaring t.source (t.decl m.owner).scope s!"method_{(t.method m).name}"
      (((t.method m).parameters.map Node.parameterNames).getD []) with
  | ok opened => exact ⟨body, _, _, last, hbody, rfl, (walkMethod_eq hopen).symm.trans hwalk, hedges⟩
  | error fault =>
    have hhalt : walkMethod { table := t, method := m } body { scopes } = .error (.fault fault) { scopes } := by
      show (lift _ >>= _) _ = _
      rw [hopen]
      rfl
    cases hhalt.symm.trans hwalk

theorem Inspects.access {finding : Finding} (h : t.Inspects scopes m depth region st)
    (hhalt : walkRegion { table := t, method := m } depth region st = .error (.access finding) last) :
    t.classify scopes m = .ok (.access finding, last.scopes) := by
  obtain ⟨body, scope, opened, hbody, hopen, hreaches⟩ := h
  rw [classify_eq hopen hbody, hreaches.halts hhalt, conclude]

theorem Inspects.succeeds {edges : List MethodId} (h : t.Inspects scopes m depth region st)
    (hclear : t.classify scopes m = .ok (.clear edges, scopes')) :
    ∃ last, walkRegion { table := t, method := m } depth region st = .ok () last := by
  obtain ⟨body, scope, opened, hbody, hopen, hreaches⟩ := h
  obtain ⟨_, _, _, last, hbody', hopen', hwalk, _⟩ := opens_of_clear hclear
  cases hbody.symm.trans hbody'
  cases hopen.symm.trans hopen'
  exact hreaches.succeeds hwalk

theorem Inspects.keeps (hP : Scopes.Invariant P) (h : t.Inspects scopes m depth region st) (hs : P scopes) :
    P st.scopes := by
  obtain ⟨body, scope, opened, _, hopen, hreaches⟩ := h
  exact hreaches.keeps hP (hP.childDeclaring hs hopen)

theorem Inspects.trans {depth' : Nat} {region' : CodeRegion} {st' : WalkState}
    (h : t.Inspects scopes m depth region st)
    (h' : Reaches { table := t, method := m } depth region st depth' region' st') :
    t.Inspects scopes m depth' region' st' := by
  obtain ⟨body, scope, opened, hbody, hopen, hreaches⟩ := h
  exact ⟨body, scope, opened, hbody, hopen, hreaches.trans h'⟩

end Table

end StaticPromotion
