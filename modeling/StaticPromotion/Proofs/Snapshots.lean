import StaticPromotion.Proofs.Levels

/-!
# Snapshots freeze what lookup sees

A class declared in code captures the levels around it as they are at that point. The copy of these levels is new, so what is
declared in the live ones later on does not reach it. Only the nearest class level and what is around it are shared.

* `Scopes.Change`             one operation on a store, and `Scopes.after` a row of them;
* `Scopes.Change.frame_apply`, `Scopes.frame_after`   a level that is not filled stays as it is, by one operation and by any row;
* `Table.Agree`               lookup gives the same from a scope of one store and from a scope of another;
* `Scopes.snapshot_freezes`   the answers from a snapshot are those at its time, whatever is declared outside its own levels.
-/

namespace StaticPromotion

namespace Scopes

/-! ## operations on a store -/

inductive Change where
  | declare (scope : ScopeId) (name : String)
  | declareType (scope : ScopeId) (name : String) (cls : ClassId)
  | child (parent : ScopeId) (label : String)
  | enterClass (parent : ScopeId) (cls : ClassId) (displayName : String)
  | snapshot (scope : ScopeId)

namespace Change

def apply (s : Scopes) : Change → Scopes
  | .declare scope name => s.declare scope name
  | .declareType scope name cls => s.declareType scope name cls
  | .child parent label => (s.child parent label).2
  | .enterClass parent cls displayName => (s.enterClass parent cls displayName).2
  | .snapshot scope => (s.snapshot scope).2

/-- the level in which it declares something -/
def fills : Change → Option ScopeId
  | .declare scope _ | .declareType scope _ _ => some scope
  | .child _ _ | .enterClass _ _ _ | .snapshot _ => none

theorem size_le_apply (s : Scopes) (change : Change) : s.frames.size ≤ (change.apply s).frames.size := by
  cases change with
  | declare scope name => exact (s.grows_declare scope name).size
  | declareType scope name cls => exact (s.grows_declareType scope name cls).size
  | child parent label => exact (s.grows_child parent label).size
  | enterClass parent cls displayName => exact (s.grows_add _).size
  | snapshot scope => exact ((Keeps.refl s).snapshot scope).size

theorem frame_apply {s : Scopes} {change : Change} {id : ScopeId} (hid : id < s.frames.size)
    (hfills : change.fills ≠ some id) : (change.apply s).frame id = s.frame id := by
  cases change with
  | declare scope name | declareType scope name cls =>
    exact frame_modifyFrame_of_ne s _ fun heq => hfills (congrArg some heq.symm)
  | child parent label | enterClass parent cls displayName => exact frame_add_of_lt s _ hid
  | snapshot scope => exact ((Keeps.refl s).snapshot scope).frame id hid

end Change

def after (s : Scopes) (changes : List Change) : Scopes :=
  changes.foldl Change.apply s

theorem frame_after {changes : List Change} {s : Scopes} {id : ScopeId} (hid : id < s.frames.size)
    (hfills : ∀ change ∈ changes, change.fills ≠ some id) : (s.after changes).frame id = s.frame id := by
  induction changes generalizing s with
  | nil => rfl
  | cons change changes ih =>
    have hrest := ih (Nat.lt_of_lt_of_le hid (change.size_le_apply s)) fun later hlater =>
      hfills later (List.mem_cons_of_mem _ hlater)
    exact hrest.trans (Change.frame_apply hid (hfills change List.mem_cons_self))

end Scopes

/-! ## answers -/

/-- from `sb` in the store `b`, lookup gives what it gives from `sa` in `a` -/
structure Table.Agree (t : Table) (a : Scopes) (sa : ScopeId) (b : Scopes) (sb : ScopeId) : Prop where
  name : ∀ name, t.resolveName b sb name = t.resolveName a sa name
  method : ∀ name arguments, t.resolveMethod b sb name arguments = t.resolveMethod a sa name arguments
  typeName : ∀ name, t.resolveTypeName b sb name = t.resolveTypeName a sa name

theorem Table.agree_of_view (t : Table) {a b : Scopes} {sa sb : ScopeId}
    (h : (b.levels sb).map Frame.view = (a.levels sa).map Frame.view) : t.Agree a sa b sb :=
  ⟨t.resolveName_of_view h, t.resolveMethod_of_view h, t.resolveTypeName_of_view h⟩

namespace Scopes

variable {s : Scopes} {sc : ScopeId}

theorem levels_after {changes : List Change} (hvalid : s.Valid sc)
    (hfills : ∀ change ∈ changes, ∀ id ∈ s.chain sc, change.fills ≠ some id) :
    (s.after changes).chain sc = s.chain sc ∧ (s.after changes).levels sc = s.levels sc := by
  have hframe : ∀ id ∈ s.chain sc, (s.after changes).frame id = s.frame id := fun id hid =>
    frame_after (hvalid id hid) fun change hchange => hfills change hchange id hid
  have hchain : (s.after changes).chain sc = s.chain sc := by
    rw [chain, chain, hframe sc List.mem_cons_self]
  exact ⟨hchain, by rw [levels, levels, hchain, List.map_congr_left hframe]⟩

/-- **A snapshot freezes what lookup sees from a scope.** The chain of the scope is a row of block levels, the nearest class
level and the levels around that. The chain of the snapshot is a row of new levels, and then the very same class level and the
same levels around it; all levels there were before stay as they were. And whatever is done to the store afterwards, as long as
nothing is declared in a level of the snapshot's chain, that chain stays and lookup from the snapshot gives for every name, every
number of arguments and every type name what it gave from the scope at the time of the snapshot. -/
theorem snapshot_freezes (hvalid : s.Valid sc) (hclass : ∃ id ∈ s.chain sc, (s.frame id).isClassScope = true) :
    ∃ blocks nearest outer copies, s.chain sc = blocks ++ nearest :: outer ∧
      (s.snapshot sc).2.chain (s.snapshot sc).1 = copies ++ nearest :: outer ∧
      (∀ id ∈ blocks, (s.frame id).isClassScope = false) ∧ (s.frame nearest).isClassScope = true ∧
      copies.Nodup ∧ (∀ id ∈ copies, s.frames.size ≤ id) ∧ s.Keeps (s.snapshot sc).2 ∧
      ∀ later : List Change, (∀ change ∈ later, ∀ id ∈ copies ++ nearest :: outer, change.fills ≠ some id) →
        ((s.snapshot sc).2.after later).chain (s.snapshot sc).1 = copies ++ nearest :: outer ∧
        ∀ t : Table, t.Agree s sc ((s.snapshot sc).2.after later) (s.snapshot sc).1 := by
  have hlevel : ∃ id ∈ s.chain sc, (s.frame id).cls ≠ none := by
    obtain ⟨id, hid, hcls⟩ := hclass
    exact ⟨id, hid, Option.isSome_iff_ne_none.mp hcls⟩
  obtain ⟨blocks, nearest, outer, copies, hchain, hcopy, hblocks, hnearest, hcopied⟩ := exists_copied hlevel
  have hkeeps : s.Keeps (s.snapshot sc).2 := (Keeps.refl s).snapshot sc
  have hcopy : (s.snapshot sc).2.chain (s.snapshot sc).1 = copies ++ nearest :: outer :=
    (s.chain_snapshot sc).trans hcopy
  have hshared : ∀ id ∈ nearest :: outer, id < s.frames.size := fun id hid =>
    hvalid id (hchain ▸ List.mem_append_right _ hid)
  have hnew : (s.snapshot sc).2.Valid (s.snapshot sc).1 := by
    intro id hid
    rcases List.mem_append.mp (hcopy ▸ hid) with hid | hid
    · exact (hcopied.new id hid).2
    · exact Nat.lt_of_lt_of_le (hshared id hid) hkeeps.size
  -- level by level, the copy shows what the scope shows
  have hview : ((s.snapshot sc).2.levels (s.snapshot sc).1).map Frame.view = (s.levels sc).map Frame.view := by
    have hcopies : (copies.map (s.snapshot sc).2.frame).map Frame.view = (blocks.map s.frame).map Frame.view := by
      rw [List.map_map, List.map_map]
      exact hcopied.views
    have hsame : (nearest :: outer).map (s.snapshot sc).2.frame = (nearest :: outer).map s.frame :=
      List.map_congr_left fun id hid => hkeeps.frame id (hshared id hid)
    rw [levels, levels, hcopy, hchain, List.map_append, List.map_append, hsame, List.map_append, List.map_append,
      hcopies]
  refine ⟨blocks, nearest, outer, copies, hchain, hcopy, fun id hid => ?_, Option.isSome_iff_ne_none.mpr hnearest,
    hcopied.distinct, fun id hid => (hcopied.new id hid).1, hkeeps, fun later hlater => ?_⟩
  · rw [Frame.isClassScope, hblocks id hid]
    rfl
  · obtain ⟨hstays, hlevels⟩ := levels_after hnew fun change hchange id hid =>
      hlater change hchange id (hcopy ▸ hid)
    exact ⟨hstays.trans hcopy, fun t => t.agree_of_view (hlevels ▸ hview)⟩

/-- a method in the class `0`, with a variable `x`, and in a block of it a local class `L` -/
def methodBlock : Scopes :=
  initial.after [.enterClass 0 0 "A", .child 1 "method", .declare 2 "x", .child 2 blockLabel, .declareType 3 "L" 1]

/-- later the block and the method declare more, and a level is opened inside the snapshot -/
def methodBlockGoesOn : List Change :=
  [.declare 3 "y", .declareType 2 "L" 2, .child 5 blockLabel, .declare 6 "x", .snapshot 3]

/-- the snapshot still sees what the block saw, while the block sees its new variable -/
theorem methodBlock_frozen : methodBlock.Valid 3 ∧ (methodBlock.frame 1).isClassScope = true ∧
    (methodBlock.snapshot 3).1 = 5 ∧ (methodBlock.snapshot 3).2.chain 5 = [5, 4, 1, 0] ∧
    ∀ t : Table, t.Agree methodBlock 3 ((methodBlock.snapshot 3).2.after methodBlockGoesOn) 5 ∧
      t.resolveTypeName ((methodBlock.snapshot 3).2.after methodBlockGoesOn) 5 "L" = some ⟨"L", some 1⟩ ∧
      t.resolveName ((methodBlock.snapshot 3).2.after methodBlockGoesOn) 3 "y" = .localName "y" none := by
  have hvalid : methodBlock.Valid 3 := by
    unfold Valid
    decide
  have hchain : (methodBlock.snapshot 3).2.chain (methodBlock.snapshot 3).1 = [5, 4, 1, 0] := by decide
  obtain ⟨_, _, _, _, _, hcopy, _, _, _, _, _, hfreezes⟩ := snapshot_freezes hvalid ⟨1, by decide, rfl⟩
  refine ⟨hvalid, rfl, rfl, hchain, fun t => ⟨(hfreezes methodBlockGoesOn ?_).2 t, rfl, rfl⟩⟩
  rw [← hcopy, hchain]
  decide

end Scopes

end StaticPromotion
