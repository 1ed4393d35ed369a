import StaticPromotion.Proofs.Indexed
import StaticPromotion.Proofs.Visits

/-!
# Verdicts do not depend on what was inspected before

An inspection leaves scopes behind, and the next one starts from there. In a tree whose static initializers are blocks nothing
is ever declared in a level of the table itself, so the levels that were there at first stay as they are. The new ones are only
numbered differently, and no lookup sees a number.

* `Node.hasPlainInitializers`   every static initializer of the tree consists of blocks;
* `Scopes.Shifted`              two stores that differ in the numbers of their later levels;
* `Table.verdict`               the verdict on a method in a table as built;
* `Table.verdict_of_reached`    every later inspection comes to the same verdict.
-/

namespace StaticPromotion

/-! ## levels that stay -/

/-- in source text a static initializer is a block -/
def Node.hasPlainInitializers (root : Node) : Bool :=
  root.preorder.all fun n => n.kind != "static_initializer" ||
    n.namedChildren.all fun part => part.construct == .block || part.construct == .inert

theorem kind_of_staticBlock {kind : String} (h : Table.MemberKind.ofKind kind = .staticBlock) :
    kind = "static_initializer" := by
  unfold Table.MemberKind.ofKind at h
  split at h
  all_goals first | rfl | cases h | skip
  split at h <;> cases h

namespace Table

variable {t : Table} {source : SourceUnit}

theorem fits_of_plain (built : ofSource source = .ok t) (hplain : source.root.hasPlainInitializers = true)
    (free : ScopeId → Prop) (c : ClassId) (body member part : Node) (hbody : (t.decl c).body = some body)
    (hmember : member ∈ memberNodes body) (hkind : MemberKind.ofKind member.kind = .staticBlock)
    (hpart : part ∈ member.namedChildren) : Fits free (.code part (t.decl c).scope) := by
  have hsound := sound_of_ofSource built
  have hin : member ∈ source.root.preorder := by
    rw [← source_of_ofSource built]
    exact Node.mem_preorder_of_mem_memberNodes hmember (hsound.body c (lt_of_body hbody) body hbody)
  have hall := List.all_eq_true.mp hplain member hin
  rw [kind_of_staticBlock hkind] at hall
  have hshape := List.all_eq_true.mp hall part hpart
  rw [Bool.or_eq_true, beq_iff_eq, beq_iff_eq] at hshape
  exact .inr hshape

theorem ScopesReached.keeps (built : ofSource source = .ok t)
    (hplain : source.root.hasPlainInitializers = true) {s : Scopes} (hs : t.ScopesReached s) :
    t.scopes.Keeps s := by
  induction hs with
  | start => exact .refl _
  | next _ hverdict ih =>
    exact t.scopes.kept_keeps.classify (admission_fits (fits_of_plain built hplain _)) ih hverdict

end Table

/-! ## numbers that do not matter -/

theorem Frame.view_declared (name : String) (f g : Frame) (h : f.view = g.view) :
    { f with locals := f.locals.insert name : Frame }.view =
      { g with locals := g.locals.insert name : Frame }.view := by
  obtain ⟨hcls, hlocals, htypes⟩ := Frame.view_eq h
  simp only [Frame.view, hcls, hlocals, htypes]

theorem Frame.view_declaredType (name : String) (c : ClassId) (f g : Frame) (h : f.view = g.view) :
    { f with types := f.types.put name c : Frame }.view =
      { g with types := g.types.put name c : Frame }.view := by
  obtain ⟨hcls, hlocals, htypes⟩ := Frame.view_eq h
  simp only [Frame.view, hcls, hlocals, htypes]

namespace Scopes

/-- the number in the second store of a level of the first: those from `base` on come `k` later -/
def shift (base k id : Nat) : Nat :=
  if id < base then id else id + k

theorem shift_of_lt {base k id : Nat} (h : id < base) : shift base k id = id :=
  if_pos h

theorem shift_of_le {base k id : Nat} (h : base ≤ id) : shift base k id = id + k :=
  if_neg (Nat.not_lt.mpr h)

theorem shift_injective {base k id id' : Nat} (h : shift base k id = shift base k id') : id = id' := by
  unfold shift at h
  split at h <;> split at h <;> omega

theorem shift_lt_iff {base k id n : Nat} (h : base ≤ n) : shift base k id < n + k ↔ id < n := by
  unfold shift
  split <;> omega

structure Shifted (base k : Nat) (a b : Scopes) : Prop where
  base_le : base ≤ a.frames.size
  size : b.frames.size = a.frames.size + k
  view : ∀ id, (b.frame (shift base k id)).view = (a.frame id).view
  ancestors : ∀ id, (b.frame (shift base k id)).ancestors = (a.frame id).ancestors.map (shift base k)

variable {base k : Nat} {a b : Scopes}

theorem Shifted.chain (h : Shifted base k a b) (sc : ScopeId) :
    b.chain (shift base k sc) = (a.chain sc).map (shift base k) := by
  rw [Scopes.chain, h.ancestors, Scopes.chain, List.map_cons]

theorem Shifted.levels (h : Shifted base k a b) (sc : ScopeId) :
    (b.levels (shift base k sc)).map Frame.view = (a.levels sc).map Frame.view := by
  rw [Scopes.levels, h.chain, Scopes.levels, List.map_map, List.map_map, List.map_map]
  exact List.map_congr_left fun id _ => h.view id

theorem Shifted.shift_size (h : Shifted base k a b) : shift base k a.frames.size = b.frames.size := by
  rw [shift_of_le h.base_le, h.size]

theorem Shifted.child (h : Shifted base k a b) (sc : ScopeId) (label : String) :
    Shifted base k (a.child sc label).2 (b.child (shift base k sc) label).2 := by
  have hcases : ∀ id, (id = a.frames.size ∧ shift base k id = b.frames.size) ∨
      (id ≠ a.frames.size ∧ shift base k id ≠ b.frames.size) := by
    intro id
    by_cases hid : id = a.frames.size
    · exact .inl ⟨hid, hid ▸ h.shift_size⟩
    · exact .inr ⟨hid, fun heq => hid (shift_injective (heq.trans h.shift_size.symm))⟩
  refine ⟨Nat.le_trans h.base_le (grows_child a sc label).size, ?_, fun id => ?_, fun id => ?_⟩
  · show (b.add _).2.frames.size = (a.add _).2.frames.size + k
    rw [size_add, size_add, h.size]
    omega
  · rcases hcases id with ⟨rfl, hid⟩ | ⟨hne, hne'⟩
    · rw [hid, Scopes.child, frame_add_self, Scopes.child, frame_add_self]
      rfl
    · rw [Scopes.child, frame_add_of_ne b _ hne', Scopes.child, frame_add_of_ne a _ hne]
      exact h.view id
  · rcases hcases id with ⟨rfl, hid⟩ | ⟨hne, hne'⟩
    · rw [hid, Scopes.child, frame_add_self, Scopes.child, frame_add_self]
      exact h.chain sc
    · rw [Scopes.child, frame_add_of_ne b _ hne', Scopes.child, frame_add_of_ne a _ hne]
      exact h.ancestors id

theorem Shifted.modifyFrame (h : Shifted base k a b) (sc : ScopeId) {change : Frame → Frame}
    (hview : ∀ f g, f.view = g.view → (change f).view = (change g).view)
    (hancestors : ∀ f, (change f).ancestors = f.ancestors) :
    Shifted base k (a.modifyFrame sc change) (b.modifyFrame (shift base k sc) change) := by
  have hlt : shift base k sc < b.frames.size ↔ sc < a.frames.size := by
    rw [h.size]
    exact shift_lt_iff h.base_le
  -- a level that is not there is not changed
  have hframe : ∀ id, (a.modifyFrame sc change).frame id = a.frame id ∧
      (b.modifyFrame (shift base k sc) change).frame (shift base k id) = b.frame (shift base k id) ∨
      (a.modifyFrame sc change).frame id = change (a.frame id) ∧
      (b.modifyFrame (shift base k sc) change).frame (shift base k id) =
        change (b.frame (shift base k id)) := by
    intro id
    by_cases hid : id = sc
    · subst hid
      rcases Nat.lt_or_ge id a.frames.size with hin | hout
      · exact .inr ⟨frame_modifyFrame_self a change hin, frame_modifyFrame_self b change (hlt.mpr hin)⟩
      · have hout' : b.frames.size ≤ shift base k id :=
          Nat.not_lt.mp fun hin => Nat.not_lt.mpr hout (hlt.mp hin)
        refine .inl ⟨?_, ?_⟩
        · rw [frame_of_le _ hout, frame_of_le _ ((size_modifyFrame a id change).symm ▸ hout)]
        · rw [frame_of_le _ hout', frame_of_le _ ((size_modifyFrame b _ change).symm ▸ hout')]
    · exact .inl ⟨frame_modifyFrame_of_ne a change hid,
        frame_modifyFrame_of_ne b change fun heq => hid (shift_injective heq)⟩
  refine ⟨?_, ?_, fun id => ?_, fun id => ?_⟩
  · rw [size_modifyFrame]
    exact h.base_le
  · rw [size_modifyFrame, size_modifyFrame, h.size]
  · rcases hframe id with ⟨ha, hb⟩ | ⟨ha, hb⟩
    · rw [ha, hb, h.view]
    · rw [ha, hb]
      exact hview _ _ (h.view id)
  · rcases hframe id with ⟨ha, hb⟩ | ⟨ha, hb⟩
    · rw [ha, hb, h.ancestors]
    · rw [ha, hb, hancestors, hancestors, h.ancestors]

theorem Keeps.shifted {base s : Scopes} (h : base.Keeps s) (hclosed : base.Closed) :
    Shifted base.frames.size (s.frames.size - base.frames.size) base s := by
  have hsize := h.size
  refine ⟨Nat.le_refl _, by omega, fun id => ?_, fun id => ?_⟩
  · rcases Nat.lt_or_ge id base.frames.size with hin | hout
    · rw [shift_of_lt hin, h.frame id hin]
    · rw [shift_of_le hout, frame_of_le base hout, frame_of_le s (by omega)]
  · rcases Nat.lt_or_ge id base.frames.size with hin | hout
    · rw [shift_of_lt hin, h.frame id hin]
      have hsame : (base.frame id).ancestors.map
          (shift base.frames.size (s.frames.size - base.frames.size)) =
            (base.frame id).ancestors.map fun x => x :=
        List.map_congr_left fun x hx => shift_of_lt (hclosed id hin x (List.mem_cons_of_mem _ hx))
      rw [hsame, List.map_id']
    · rw [shift_of_le hout, frame_of_le base hout, frame_of_le s (by omega)]
      rfl

end Scopes

namespace Table

variable {t : Table} {source : SourceUnit}

theorem Sound.scope_lt (h : t.Sound) (c : ClassId) : (t.decl c).scope < t.scopes.frames.size := by
  rcases Nat.lt_or_ge c t.classes.size with hlt | hge
  · exact (h.inside hlt).valid.lt
  · rw [t.decl_of_le hge]
    exact h.outermost.valid.lt

def shifting (h : t.Sound) (k : Nat) : Lockstep t where
  scope := Scopes.shift t.scopes.frames.size k
  free _ := True
  store := Scopes.Shifted t.scopes.frames.size k
  escape _ _ := False
  levels sc hstore := hstore.levels sc
  child sc label hstore := ⟨hstore.shift_size.symm, trivial, hstore.child sc label⟩
  declare name _ hstore := hstore.modifyFrame _ (Frame.view_declared name) fun _ => rfl
  declareType name c _ hstore := hstore.modifyFrame _ (Frame.view_declaredType name c) fun _ => rfl
  classScope c := Scopes.shift_of_lt (h.scope_lt c)
  enters := _
  admission := admission_all t

theorem conclude_of_results {K : Lockstep t} (hescape : ∀ halt st, ¬ K.escape halt st)
    {x y : EStateM.Result Halt WalkState Unit} (h : K.Results (fun _ _ => True) x y) :
    (Subject.conclude y).map (·.1) = (Subject.conclude x).map (·.1) := by
  cases x with
  | ok _ a =>
    cases y with
    | ok _ b =>
      show Except.ok (Verdict.clear b.edges) = .ok (.clear a.edges)
      rw [h.2.2.1]
    | error halt b => exact absurd h (hescape halt b)
  | error halt a =>
    cases y with
    | ok _ b => exact h.elim
    | error halt' b =>
      rcases h with ⟨rfl, _⟩ | hpart
      · cases halt' <;> rfl
      · exact absurd hpart (hescape halt' b)

/-- the verdict on a method, before any other inspection -/
def verdict (t : Table) (m : MethodId) : Except Fault Verdict :=
  (t.classify t.scopes m).map (·.1)

theorem classify_of_verdict {m : MethodId} {v : Verdict} (h : t.verdict m = .ok v) :
    ∃ found, t.classify t.scopes m = .ok found ∧ found.1 = v := by
  rw [verdict] at h
  cases hclassify : t.classify t.scopes m with
  | error fault =>
    rw [hclassify] at h
    cases h
  | ok found =>
    rw [hclassify] at h
    cases h
    exact ⟨found, rfl, rfl⟩

theorem verdict_of_reached (built : ofSource source = .ok t)
    (hplain : source.root.hasPlainInitializers = true) {s : Scopes} (hs : t.ScopesReached s)
    (m : MethodId) : (t.classify s m).map (·.1) = t.verdict m := by
  have hsound := sound_of_ofSource built
  have hshifted := (hs.keeps built hplain).shifted hsound.closed
  rw [verdict, classify, classify]
  cases (t.method m).body with
  | none => rfl
  | some body =>
    have hruns := Lockstep.runs_walkMethod (s := { table := t, method := m })
      (K := shifting hsound (s.frames.size - t.scopes.frames.size)) body (fun _ _ => .inl trivial)
      { scopes := t.scopes } { scopes := s } ⟨hshifted, rfl, rfl⟩
    exact conclude_of_results (fun _ _ => id) hruns

end Table

end StaticPromotion
