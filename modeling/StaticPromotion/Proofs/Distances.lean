import Mathlib.Logic.Function.Iterate
import Mathlib.Order.Lattice.Nat
import StaticPromotion.Proofs.Inheriting
import StaticPromotion.Proofs.Supertypes

/-!
# Classes in order of their distance

The hierarchy of a class is found by a queue. The class at its front is taken off; if it was not yielded before, it is yielded and
its supertypes join the queue at the end, however often they stand in it already. Supertypes may be shared, and they may lead
back to the class itself.

* `Search.step`         what is done with the front of the queue;
* `Tracks`              how a search stands to what `breadthFirst` has seen. `Tracks.iterate_step`: the queue runs empty after one step
                        for each of its elements, and by then the search has yielded what `breadthFirst` gives;
* `Climbs`, `distance`  a chain of supertypes of some length, and the least length of one;
* `Layered`             the invariant of the search. The queue holds two layers, one after the other, the nearer of which is not yet
                        yielded throughout; all that is nearer still has been yielded;
* `hierarchy_in_layers`    so the hierarchy of a class has all that it can climb to, the nearer classes first.
-/

namespace StaticPromotion

namespace Table

/-! ## the search, step by step -/

/-- what was yielded, and what waits -/
structure Search where
  yielded : List ClassId
  queue : List ClassId
deriving DecidableEq

/-- takes off the front of the queue; what was yielded before is passed over -/
def Search.step (next : ClassId → List ClassId) (s : Search) : Search :=
  match s.queue with
  | [] => s
  | c :: rest => if c ∈ s.yielded then ⟨s.yielded, rest⟩ else ⟨s.yielded ++ [c], rest ++ next c⟩

section
variable {next : ClassId → List ClassId} {yielded rest all unseen passed queue : List ClassId} {c k : ClassId}

theorem step_of_mem (h : c ∈ yielded) : Search.step next ⟨yielded, c :: rest⟩ = ⟨yielded, rest⟩ :=
  if_pos h

theorem step_of_not_mem (h : c ∉ yielded) :
    Search.step next ⟨yielded, c :: rest⟩ = ⟨yielded ++ [c], rest ++ next c⟩ :=
  if_neg h

theorem breadthFirst_of_seen (h : ∀ x ∈ queue, x ∉ unseen) : breadthFirst next unseen queue = [] := by
  rw [breadthFirst]
  split
  · rfl
  · rename_i c found
    exact absurd (List.contains_iff_mem.mp (List.find?_some found)) (h c (List.mem_of_find?_eq_some found))

theorem breadthFirst_of_unseen (hpassed : ∀ x ∈ passed, x ∉ unseen) (hc : c ∈ unseen) :
    breadthFirst next unseen (passed ++ c :: rest) =
      c :: breadthFirst next (unseen.erase c) (passed ++ c :: rest ++ next c) := by
  have hfound : (passed ++ c :: rest).find? unseen.contains = some c := by
    have hnone : passed.find? unseen.contains = none :=
      List.find?_eq_none.mpr fun x hx hcontains => hpassed x hx (List.contains_iff_mem.mp hcontains)
    rw [List.find?_append, hnone, Option.none_or, List.find?_cons_of_pos (List.contains_iff_mem.mpr hc)]
  rw [breadthFirst]
  split
  · rename_i hnone
    rw [hfound] at hnone
    cases hnone
  · rename_i found
    rw [hfound] at found
    cases found
    rfl

/-- the search has yielded what is seen; what `breadthFirst` still has before its queue is passed -/
structure Tracks (next : ClassId → List ClassId) (all unseen passed yielded queue : List ClassId) : Prop where
  closed : ∀ x ∈ all, next x ⊆ all
  distinct : unseen.Nodup
  queue : queue ⊆ all
  yielded : ∀ x ∈ all, x ∈ yielded ↔ x ∉ unseen
  passed : ∀ x ∈ passed, x ∉ unseen

theorem Tracks.skip (h : Tracks next all unseen passed yielded (c :: rest)) (hc : c ∈ yielded) :
    Tracks next all unseen (passed ++ [c]) yielded rest := by
  obtain ⟨hall, hrest⟩ := List.cons_subset.mp h.queue
  refine ⟨h.closed, h.distinct, hrest, h.yielded, fun x hx => ?_⟩
  rcases List.mem_append.mp hx with hold | hnew
  · exact h.passed x hold
  · rw [List.mem_singleton.mp hnew]
    exact (h.yielded c hall).mp hc

theorem Tracks.take (h : Tracks next all unseen passed yielded (c :: rest)) :
    Tracks next all (unseen.erase c) (passed ++ [c]) (yielded ++ [c]) (rest ++ next c) := by
  obtain ⟨hall, hrest⟩ := List.cons_subset.mp h.queue
  refine ⟨h.closed, h.distinct.erase c, ?_, fun x hx => ?_, fun x hx hmem => ?_⟩
  · exact List.append_subset.mpr ⟨hrest, h.closed c hall⟩
  · rw [List.mem_append, List.mem_singleton, h.yielded x hx, h.distinct.mem_erase_iff]
    tauto
  · obtain ⟨hne, hold⟩ := h.distinct.mem_erase_iff.mp hmem
    rcases List.mem_append.mp hx with hpassed | hnew
    · exact h.passed x hpassed hold
    · exact hne (List.mem_singleton.mp hnew)

/-- each element of the queue takes one step, and so does each that joins it on the way -/
theorem Tracks.iterate_step (h : Tracks next all unseen passed yielded queue) :
    (Search.step next)^[queue.length + ((breadthFirst next unseen (passed ++ queue)).flatMap next).length]
      ⟨yielded, queue⟩ = ⟨yielded ++ breadthFirst next unseen (passed ++ queue), []⟩ := by
  obtain ⟨size, hsize⟩ : ∃ size, unseen.length = size := ⟨_, rfl⟩
  -- a step makes the queue shorter, or it leaves less unseen
  induction size using Nat.strong_induction_on generalizing unseen passed yielded queue with
  | _ size ih =>
    induction queue generalizing passed with
    | nil =>
      rw [List.append_nil, breadthFirst_of_seen h.passed, List.append_nil]
      rfl
    | cons c rest ihrest =>
      by_cases hc : c ∈ yielded
      · have hskip := ihrest (h.skip hc)
        rw [List.append_assoc, List.singleton_append] at hskip
        rw [List.length_cons, Nat.add_right_comm, Function.iterate_succ_apply, step_of_mem hc]
        exact hskip
      · have hunseen : c ∈ unseen := by
          by_contra hseen
          exact hc ((h.yielded c (List.cons_subset.mp h.queue).1).mpr hseen)
        have hshorter : (unseen.erase c).length < size := by
          rw [List.length_erase_of_mem hunseen, ← hsize]
          exact Nat.sub_lt (List.length_pos_of_mem hunseen) Nat.one_pos
        have htake := ih _ hshorter h.take rfl
        have hqueue : passed ++ [c] ++ (rest ++ next c) = passed ++ c :: rest ++ next c := by
          simp only [List.append_assoc, List.cons_append, List.nil_append]
        rw [hqueue] at htake
        have hcount : ∀ later : List ClassId, (c :: rest).length + ((c :: later).flatMap next).length =
            (rest ++ next c).length + (later.flatMap next).length + 1 := by
          intro later
          rw [List.flatMap_cons, List.length_append, List.length_append, List.length_cons]
          omega
        rw [breadthFirst_of_unseen h.passed hunseen, hcount, Function.iterate_succ_apply, step_of_not_mem hc, htake,
          List.append_assoc, List.singleton_append]

end

/-! ## distances -/

section
variable {next : ClassId → List ClassId} {c j k x : ClassId} {d n : Nat} {near far : List ClassId} {s : Search}

/-- `n` steps lead from `c` to `k` -/
def Climbs (next : ClassId → List ClassId) (c : ClassId) : Nat → ClassId → Prop
  | 0, k => k = c
  | n + 1, k => ∃ j, Climbs next c n j ∧ k ∈ next j

/-- the least number of steps -/
noncomputable def distance (next : ClassId → List ClassId) (c k : ClassId) : Nat :=
  sInf { n | Climbs next c n k }

theorem distance_le (h : Climbs next c n k) : distance next c k ≤ n :=
  Nat.sInf_le h

theorem le_distance (h : Climbs next c n k) (hleast : ∀ m < d, ¬ Climbs next c m k) : d ≤ distance next c k := by
  have hattained : distance next c k ∈ { n | Climbs next c n k } := Nat.sInf_mem ⟨n, h⟩
  by_contra hlt
  exact hleast _ (Nat.lt_of_not_le hlt) hattained

/-- the layer `d` is being yielded: `near` is left of it, and `far` is what has been found of the next one -/
structure Layered (next : ClassId → List ClassId) (c : ClassId) (d : Nat) (near far : List ClassId) (s : Search) :
    Prop where
  queue : s.queue = near ++ far
  distinct : s.yielded.Nodup
  sorted : s.yielded.Pairwise fun j k => distance next c j ≤ distance next c k
  yielded : ∀ k ∈ s.yielded, ∃ n ≤ d, Climbs next c n k
  ofNear : ∀ k ∈ near, Climbs next c d k
  ofFar : ∀ k ∈ far, Climbs next c (d + 1) k
  nearer : ∀ n < d, ∀ k, Climbs next c n k → k ∈ s.yielded
  layer : ∀ k, Climbs next c d k → k ∈ s.yielded ∨ k ∈ near
  expanded : ∀ j ∈ s.yielded, ∀ k ∈ next j, k ∈ s.yielded ∨ k ∈ near ∨ k ∈ far

theorem layered_start (next : ClassId → List ClassId) (c : ClassId) : Layered next c 0 [c] [] ⟨[], [c]⟩ where
  queue := rfl
  distinct := .nil
  sorted := .nil
  yielded _ hk := (List.not_mem_nil hk).elim
  ofNear _ hk := List.mem_singleton.mp hk
  ofFar _ hk := (List.not_mem_nil hk).elim
  nearer _ hn := (Nat.not_lt_zero _ hn).elim
  layer _ hk := .inr (List.mem_singleton.mpr hk)
  expanded _ hj := (List.not_mem_nil hj).elim

/-- the layer is complete, and what was found of the next one is all of it -/
theorem Layered.ascend (h : Layered next c d [] far s) : Layered next c (d + 1) far [] s where
  queue := by rw [h.queue, List.nil_append, List.append_nil]
  distinct := h.distinct
  sorted := h.sorted
  yielded k hk := by
    obtain ⟨n, hn, hclimbs⟩ := h.yielded k hk
    exact ⟨n, Nat.le_succ_of_le hn, hclimbs⟩
  ofNear := h.ofFar
  ofFar _ hk := (List.not_mem_nil hk).elim
  nearer n hn k hk := by
    rcases Nat.lt_succ_iff_lt_or_eq.mp hn with hlt | rfl
    · exact h.nearer n hlt k hk
    · exact (h.layer k hk).resolve_right List.not_mem_nil
  layer k hk := by
    obtain ⟨j, hj, hnext⟩ := hk
    have hyielded := (h.layer j hj).resolve_right List.not_mem_nil
    exact (h.expanded j hyielded k hnext).imp_right fun hfar => hfar.resolve_left List.not_mem_nil
  expanded j hj k hk := by
    rcases h.expanded j hj k hk with hyielded | hnear | hfar
    · exact .inl hyielded
    · exact (List.not_mem_nil hnear).elim
    · exact .inr (.inl hfar)

theorem Layered.skip (h : Layered next c d (x :: near) far s) (hx : x ∈ s.yielded) :
    Layered next c d near far ⟨s.yielded, near ++ far⟩ where
  queue := rfl
  distinct := h.distinct
  sorted := h.sorted
  yielded := h.yielded
  ofNear k hk := h.ofNear k (List.mem_cons_of_mem _ hk)
  ofFar := h.ofFar
  nearer := h.nearer
  layer k hk := by
    rcases h.layer k hk with hyielded | hnear
    · exact .inl hyielded
    · rcases List.mem_cons.mp hnear with rfl | hnear
      · exact .inl hx
      · exact .inr hnear
  expanded j hj k hk := by
    rcases h.expanded j hj k hk with hyielded | hnear | hfar
    · exact .inl hyielded
    · rcases List.mem_cons.mp hnear with rfl | hnear
      · exact .inl hx
      · exact .inr (.inl hnear)
    · exact .inr (.inr hfar)

/-- one more class of the layer; its supertypes are found for the next one -/
theorem Layered.take (h : Layered next c d (x :: near) far s) (hx : x ∉ s.yielded) :
    Layered next c d near (far ++ next x) ⟨s.yielded ++ [x], near ++ far ++ next x⟩ where
  queue := List.append_assoc _ _ _
  distinct := List.nodup_append.mpr ⟨h.distinct, List.nodup_singleton x, fun j hj k hk heq =>
    hx (List.mem_singleton.mp hk ▸ heq ▸ hj)⟩
  sorted := by
    refine List.pairwise_append.mpr ⟨h.sorted, List.pairwise_singleton _ _, fun j hj k hk => ?_⟩
    obtain ⟨n, hn, hclimbs⟩ := h.yielded j hj
    rw [List.mem_singleton.mp hk]
    calc distance next c j ≤ n := distance_le hclimbs
      _ ≤ d := hn
      _ ≤ distance next c x := le_distance (h.ofNear x List.mem_cons_self) fun m hm hshort => hx (h.nearer m hm x hshort)
  yielded k hk := by
    rcases List.mem_append.mp hk with hold | hnew
    · exact h.yielded k hold
    · exact ⟨d, Nat.le_refl d, h.ofNear k (List.mem_singleton.mp hnew ▸ List.mem_cons_self)⟩
  ofNear k hk := h.ofNear k (List.mem_cons_of_mem _ hk)
  ofFar k hk := by
    rcases List.mem_append.mp hk with hold | hnew
    · exact h.ofFar k hold
    · exact ⟨x, h.ofNear x List.mem_cons_self, hnew⟩
  nearer n hn k hk := List.mem_append_left _ (h.nearer n hn k hk)
  layer k hk := by
    rw [List.mem_append, List.mem_singleton]
    rcases h.layer k hk with hyielded | hnear
    · exact .inl (.inl hyielded)
    · exact (List.mem_cons.mp hnear).imp_left .inr
  expanded j hj k hk := by
    rw [List.mem_append, List.mem_singleton, List.mem_append]
    rcases List.mem_append.mp hj with hold | hnew
    · rcases h.expanded j hold k hk with hyielded | hnear | hfar
      · exact .inl (.inl hyielded)
      · exact (List.mem_cons.mp hnear).imp .inr .inl
      · exact .inr (.inr (.inl hfar))
    · exact .inr (.inr (.inr (List.mem_singleton.mp hnew ▸ hk)))

def InLayers (next : ClassId → List ClassId) (c : ClassId) (s : Search) : Prop :=
  ∃ d near far, Layered next c d near far s

theorem Layered.step_cons (h : Layered next c d (x :: near) far s) : InLayers next c (s.step next) := by
  obtain ⟨yielded, queue⟩ := s
  obtain rfl : queue = x :: (near ++ far) := h.queue
  by_cases hx : x ∈ yielded
  · rw [step_of_mem hx]
    exact ⟨d, near, far, h.skip hx⟩
  · rw [step_of_not_mem hx]
    exact ⟨d, near, far ++ next x, h.take hx⟩

theorem InLayers.step (h : InLayers next c s) : InLayers next c (s.step next) := by
  obtain ⟨d, near, far, h⟩ := h
  cases near with
  | cons x near => exact h.step_cons
  | nil =>
    cases far with
    | cons x far => exact h.ascend.step_cons
    | nil =>
      have hsame : s.step next = s := by
        rw [Search.step, h.queue]
        rfl
      rw [hsame]
      exact ⟨d, [], [], h⟩

theorem InLayers.iterate (h : InLayers next c s) (n : Nat) : InLayers next c ((Search.step next)^[n] s) := by
  induction n generalizing s with
  | zero => exact h
  | succ n ih =>
    rw [Function.iterate_succ_apply]
    exact ih h.step

/-- once nothing waits, all that can be reached has been yielded -/
theorem InLayers.mem_yielded_iff (h : InLayers next c s) (hdone : s.queue = []) :
    k ∈ s.yielded ↔ ∃ n, Climbs next c n k := by
  obtain ⟨d, near, far, h⟩ := h
  obtain ⟨rfl, rfl⟩ := List.append_eq_nil_iff.mp (h.queue.symm.trans hdone)
  constructor
  · intro hk
    obtain ⟨n, _, hclimbs⟩ := h.yielded k hk
    exact ⟨n, hclimbs⟩
  · rintro ⟨n, hclimbs⟩
    induction n generalizing k with
    | zero =>
      rcases Nat.eq_zero_or_pos d with rfl | hpos
      · exact (h.layer k hclimbs).resolve_right List.not_mem_nil
      · exact h.nearer 0 hpos k hclimbs
    | succ n ih =>
      obtain ⟨j, hj, hnext⟩ := hclimbs
      have hnone : ¬ (k ∈ [] ∨ k ∈ []) := fun hin => hin.elim List.not_mem_nil List.not_mem_nil
      exact (h.expanded j (ih hj) k hnext).resolve_right hnone

theorem InLayers.nodup (h : InLayers next c s) : s.yielded.Nodup := by
  obtain ⟨_, _, _, h⟩ := h
  exact h.distinct

theorem InLayers.sorted (h : InLayers next c s) :
    s.yielded.Pairwise fun j k => distance next c j ≤ distance next c k := by
  obtain ⟨_, _, _, h⟩ := h
  exact h.sorted

end

/-! ## the hierarchy of a class -/

section
variable {t : Table} {c k : ClassId} {source : SourceUnit}

def supertypesOf (t : Table) (k : ClassId) : List ClassId :=
  (t.decl k).supertypes

theorem tracks_start (built : ofSource source = .ok t) (hc : c < t.classes.size) :
    Tracks t.supertypesOf t.classIds t.classIds [] [] [c] where
  closed _ _ _ hk := mem_classIds.mpr (lt_of_mem_supertypes built hk)
  distinct := List.nodup_range
  queue := List.cons_subset.mpr ⟨mem_classIds.mpr hc, List.nil_subset _⟩
  yielded _ hx := ⟨fun hmem => (List.not_mem_nil hmem).elim, fun hnot => (hnot hx).elim⟩
  passed _ hx := (List.not_mem_nil hx).elim

theorem iterate_step_hierarchy (built : ofSource source = .ok t) (hc : c < t.classes.size) :
    (Search.step t.supertypesOf)^[1 + ((t.hierarchy c).flatMap t.supertypesOf).length] ⟨[], [c]⟩ =
      ⟨t.hierarchy c, []⟩ :=
  (tracks_start built hc).iterate_step

/-- in a list that is sorted by some measure, the first element of a kind is a least one -/
theorem find?_le {f : ClassId → Nat} {p : ClassId → Bool} {xs : List ClassId} {x y : ClassId}
    (hsorted : xs.Pairwise fun a b => f a ≤ f b) (hfound : xs.find? p = some x) (hy : y ∈ xs) (hp : p y = true) :
    f x ≤ f y := by
  obtain ⟨_, before, after, rfl, hbefore⟩ := List.find?_eq_some_iff_append.mp hfound
  rcases List.mem_append.mp hy with hin | hin
  · exact absurd hp (by simpa using hbefore y hin)
  · rcases List.mem_cons.mp hin with rfl | hafter
    · exact Nat.le_refl _
    · exact List.rel_of_pairwise_cons (List.pairwise_append.mp hsorted).2.1 hafter

theorem declaresSupertype_iff {names : List String} : t.declaresSupertype c names = true ↔
    ∃ k ∈ t.hierarchy c, ∃ w ∈ (t.decl k).clauses, TypeName.clean w.written ∈ names := by
  have hclauses : ∀ (d : ClassDecl) (written : String),
      written ∈ d.interfaces ++ (d.superclass.filter (· != "")).toList ↔ ∃ w ∈ d.clauses, w.written = written := by
    intro d written
    rw [ClassDecl.clauses]
    simp only [List.mem_append, List.mem_map]
    constructor
    · rintro (hinterface | hsuperclass)
      · exact ⟨_, .inr ⟨written, hinterface, rfl⟩, rfl⟩
      · exact ⟨_, .inl ⟨written, hsuperclass, rfl⟩, rfl⟩
    · rintro ⟨_, ⟨text, htext, rfl⟩ | ⟨text, htext, rfl⟩, rfl⟩
      · exact .inr htext
      · exact .inl htext
  rw [declaresSupertype, List.any_eq_true]
  refine exists_congr fun k => and_congr_right fun _ => ?_
  rw [List.any_eq_true]
  constructor
  · rintro ⟨written, hwritten, hnamed⟩
    obtain ⟨w, hw, rfl⟩ := (hclauses _ _).mp hwritten
    exact ⟨w, hw, List.contains_iff_mem.mp hnamed⟩
  · rintro ⟨w, hw, hnamed⟩
    exact ⟨w.written, (hclauses _ _).mpr ⟨w, hw, rfl⟩, List.contains_iff_mem.mpr hnamed⟩

/-- The search for the hierarchy of a class ends, whatever the supertypes are: after as many steps as classes ever waited in its
queue, and it has then yielded the hierarchy. This is the class itself and then, each once, all that a chain of supertypes leads
to, the nearer ones first. So a field is found in a nearest class that declares it, if any does, and a supertype is declared iff a
clause of some class in the hierarchy names it. -/
theorem hierarchy_in_layers (built : ofSource source = .ok t) (hc : c < t.classes.size) :
    (Search.step t.supertypesOf)^[1 + ((t.hierarchy c).flatMap t.supertypesOf).length] ⟨[], [c]⟩ =
      ⟨t.hierarchy c, []⟩ ∧
    (∃ rest, t.hierarchy c = c :: rest) ∧ (t.hierarchy c).Nodup ∧
    (∀ k, k ∈ t.hierarchy c ↔ ∃ n, Climbs t.supertypesOf c n k) ∧
    (t.hierarchy c).Pairwise (fun j k => distance t.supertypesOf c j ≤ distance t.supertypesOf c k) ∧
    (∀ name, ((t.findField c name).1 = none ↔
        ∀ n k, Climbs t.supertypesOf c n k → (t.decl k).fields.get? name = none) ∧
      ∀ field, (t.findField c name).1 = some field → ∃ k n, Climbs t.supertypesOf c n k ∧
        (t.decl k).fields.get? name = some field ∧
        ∀ m j, Climbs t.supertypesOf c m j → ((t.decl j).fields.get? name).isSome = true →
          distance t.supertypesOf c k ≤ distance t.supertypesOf c j) ∧
    ∀ names, t.declaresSupertype c names = true ↔
      ∃ k n, Climbs t.supertypesOf c n k ∧ ∃ w ∈ (t.decl k).clauses, TypeName.clean w.written ∈ names := by
  have hrun := iterate_step_hierarchy built hc
  have hlayers : InLayers t.supertypesOf c ⟨t.hierarchy c, []⟩ := by
    rw [← hrun]
    exact InLayers.iterate ⟨0, [c], [], layered_start _ c⟩ _
  have hmem : ∀ k, k ∈ t.hierarchy c ↔ ∃ n, Climbs t.supertypesOf c n k := fun k => hlayers.mem_yielded_iff rfl
  have hsorted := hlayers.sorted
  refine ⟨hrun, hierarchy_eq_cons hc, hlayers.nodup, hmem, hsorted, fun name => ⟨?_, fun field hfield => ?_⟩, fun names => ?_⟩
  · rw [findField_fst, fieldOrigin?, ← findSome?_eq_bind, List.findSome?_eq_none_iff]
    exact ⟨fun h n k hk => h k ((hmem k).mpr ⟨n, hk⟩), fun h k hk => by
      obtain ⟨n, hclimbs⟩ := (hmem k).mp hk
      exact h n k hclimbs⟩
  · rw [findField_fst] at hfield
    obtain ⟨k, horigin, hget⟩ := Option.bind_eq_some_iff.mp hfield
    obtain ⟨n, hk⟩ := (hmem k).mp (List.mem_of_find?_eq_some horigin)
    exact ⟨k, n, hk, hget, fun m j hj hsome => find?_le hsorted horigin ((hmem j).mpr ⟨m, hj⟩) hsome⟩
  · rw [declaresSupertype_iff]
    simp only [hmem, exists_and_right]

/-- `interface A extends B, C { } interface B extends D, B { } interface C extends D { int x; }
interface D extends A, Serializable { int x; }`, in one line -/
def looping : SourceUnit :=
  .ofText ("interface A extends B, C \x7b \x7d interface B extends D, B \x7b \x7d " ++
    "interface C extends D \x7b int x; \x7d interface D extends A, Serializable \x7b int x; \x7d") ⟨
    ⟨"program", true, false, 0, 137, none, [
      ⟨"interface_declaration", true, false, 0, 28, none, [
        ⟨"identifier", true, false, 10, 11, some "name", []⟩,
        ⟨"extends_interfaces", true, false, 12, 24, none, [
          ⟨"type_list", true, false, 20, 24, none, [
            ⟨"type_identifier", true, false, 20, 21, none, []⟩, ⟨"type_identifier", true, false, 23, 24, none, []⟩]⟩]⟩,
        ⟨"interface_body", true, false, 25, 28, some "body", []⟩]⟩,
      ⟨"interface_declaration", true, false, 29, 57, none, [
        ⟨"identifier", true, false, 39, 40, some "name", []⟩,
        ⟨"extends_interfaces", true, false, 41, 53, none, [
          ⟨"type_list", true, false, 49, 53, none, [
            ⟨"type_identifier", true, false, 49, 50, none, []⟩, ⟨"type_identifier", true, false, 52, 53, none, []⟩]⟩]⟩,
        ⟨"interface_body", true, false, 54, 57, some "body", []⟩]⟩,
      ⟨"interface_declaration", true, false, 58, 90, none, [
        ⟨"identifier", true, false, 68, 69, some "name", []⟩,
        ⟨"extends_interfaces", true, false, 70, 79, none, [
          ⟨"type_list", true, false, 78, 79, none, [
            ⟨"type_identifier", true, false, 78, 79, none, []⟩]⟩]⟩,
        ⟨"interface_body", true, false, 80, 90, some "body", [
          ⟨"constant_declaration", true, false, 82, 88, none, [
            ⟨"integral_type", true, false, 82, 85, some "type", []⟩,
            ⟨"variable_declarator", true, false, 86, 87, some "declarator", [
              ⟨"identifier", true, false, 86, 87, some "name", []⟩]⟩]⟩]⟩]⟩,
      ⟨"interface_declaration", true, false, 91, 137, none, [
        ⟨"identifier", true, false, 101, 102, some "name", []⟩,
        ⟨"extends_interfaces", true, false, 103, 126, none, [
          ⟨"type_list", true, false, 111, 126, none, [
            ⟨"type_identifier", true, false, 111, 112, none, []⟩,
            ⟨"type_identifier", true, false, 114, 126, none, []⟩]⟩]⟩,
        ⟨"interface_body", true, false, 127, 137, some "body", [
          ⟨"constant_declaration", true, false, 129, 135, none, [
            ⟨"integral_type", true, false, 129, 132, some "type", []⟩,
            ⟨"variable_declarator", true, false, 133, 134, some "declarator", [
              ⟨"identifier", true, false, 133, 134, some "name", []⟩]⟩]⟩]⟩]⟩]⟩, none⟩

/-- `B` leads to itself, and `D`, which two ways lead to, leads back to `A`; of the two fields that of `C` is nearer -/
theorem looping_in_layers :
    ∃ t, ofSource looping = .ok t ∧ t.hierarchy 0 = [0, 1, 2, 3] ∧
      (Search.step t.supertypesOf)^[7] ⟨[], [0]⟩ = ⟨t.hierarchy 0, []⟩ ∧
      distance t.supertypesOf 0 2 ≤ distance t.supertypesOf 0 3 ∧
      (∃ field, (t.findField 0 "x").1 = some field ∧ field.owner = 2 ∧
        ∃ k n, Climbs t.supertypesOf 0 n k ∧ (t.decl k).fields.get? "x" = some field) ∧
      t.declaresSupertype 0 ["Serializable"] = true := by
  have hcheck : (ofSource looping).toOption.any (fun t => decide (t.classes.size = 4 ∧ t.hierarchy 0 = [0, 1, 2, 3] ∧
      ((t.hierarchy 0).flatMap t.supertypesOf).length = 6 ∧
      ((t.findField 0 "x").1.map fun field => field.owner) = some 2 ∧
      t.supertypesOf 0 = [1, 2] ∧ t.supertypesOf 2 = [3] ∧ (t.decl 3).clauses.map (·.written) = ["A", "Serializable"] ∧
      TypeName.clean "Serializable" = "Serializable")) = true := by
    rw [looping, SourceUnit.ofText_eq]
    decide +kernel
  obtain ⟨t, built, hall⟩ := Run.of_toOption_any hcheck
  obtain ⟨hsize, hline, hcount, howner, hfirst, hsecond, hclauses, hclean⟩ := of_decide_eq_true hall
  have hc : 0 < t.classes.size := by
    rw [hsize]
    decide
  obtain ⟨hrun, _, _, _, hsorted, hfields, hdeclares⟩ := hierarchy_in_layers built hc
  rw [hcount] at hrun
  have hlater : List.Pairwise _ [2, 3] := (hline ▸ hsorted).sublist (by decide : [2, 3].Sublist [0, 1, 2, 3])
  obtain ⟨field, hfield, howner⟩ := Option.map_eq_some_iff.mp howner
  obtain ⟨k, n, hk, hget, _⟩ := (hfields "x").2 field hfield
  -- `A`, `C`, `D`
  have hclimbs : Climbs t.supertypesOf 0 2 3 :=
    ⟨2, ⟨0, rfl, by rw [hfirst]; decide⟩, by rw [hsecond]; decide⟩
  obtain ⟨w, hw, hwritten⟩ := List.mem_map.mp (hclauses ▸ (by decide : "Serializable" ∈ ["A", "Serializable"]))
  refine ⟨t, built, hline, hrun, List.rel_of_pairwise_cons hlater List.mem_cons_self, ⟨field, hfield, howner, k, n, hk, hget⟩, ?_⟩
  refine (hdeclares _).mpr ⟨3, 2, hclimbs, w, hw, ?_⟩
  rw [hwritten, hclean]
  exact List.mem_cons_self

end

end Table

end StaticPromotion
