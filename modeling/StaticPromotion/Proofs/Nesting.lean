import Mathlib.Data.List.Sort
import StaticPromotion.Proofs.Indexed
import StaticPromotion.Proofs.Visits

/-!
# The order of the classes of a table

A class is entered before the classes in its code, and these before anything that comes after it. So the classes inside a class
are those that follow it up to some point, and a tour of all top-level classes meets the classes in the order of the table.

* `Table.Preordered`             each class stands in the one entered just before it, or next to a class around that one;
* `Table.preordered_of_ofSource` so does every table of a unit, by induction over how it unfolds;
* `Table.Preordered.between`     what lies between a class and one inside it lies inside it too;
* `Table.block k`                a class with all inside it, in order; `blocks_eq` takes such rows together;
* `Table.entered_topLevel`       the tours of the top-level classes enter every class once, in order.
-/

namespace StaticPromotion

namespace Table

variable {t t' : Table}

variable {outer : Option ClassId} {c : ClassId} {k : ClassId}

/-! ## how the classes of a table follow each other -/

structure Preordered (t : Table) : Prop where
  outers : ∀ c < t.classes.size, (t.decl c).outers = t.outersOf (t.decl c).outer
  next : ∀ c, c + 1 < t.classes.size → (t.decl (c + 1)).outers ⊆ c :: (t.decl c).outers

/-- code of the class can go on: the class entered last is that class, or stands in it -/
def IsOpen (t : Table) : Option ClassId → Prop
  | none => True
  | some o => o < t.classes.size ∧ ∀ c, c + 1 = t.classes.size → o ∈ c :: (t.decl c).outers

theorem Grows.outersOf (h : t.Grows t')
    (houter : ∀ o, outer = some o → o < t.classes.size) : t'.outersOf outer = t.outersOf outer := by
  cases outer with
  | none => rfl
  | some o => rw [Table.outersOf, Table.outersOf, h.outers (houter o rfl)]

theorem Sound.outer_lt (h : t.Sound) {o : ClassId} (hc : c < t.classes.size)
    (ho : (t.decl c).outer = some o) : o < t.classes.size :=
  Nat.lt_trans (h.outers_lt c hc o (List.mem_of_mem_head? ho)) hc

theorem Preordered.grows (h : t.Preordered) (hsound : t.Sound) (hgrows : t.Grows t')
    (hc : c < t.classes.size) : (t'.decl c).outers = t'.outersOf (t'.decl c).outer := by
  have houter : (t'.decl c).outer = (t.decl c).outer := by
    rw [ClassDecl.outer, ClassDecl.outer, hgrows.outers hc]
  rw [houter, hgrows.outersOf fun o ho => hsound.outer_lt hc ho, hgrows.outers hc]
  exact h.outers c hc

theorem Preordered.fills (h : t.Preordered) (hsound : t.Sound) (hfills : t.Fills t') : t'.Preordered := by
  have hgrows := hfills.advances.grows
  refine ⟨fun c hc => h.grows hsound hgrows (hfills.size ▸ hc), fun c hc => ?_⟩
  rw [hfills.size] at hc
  rw [hgrows.outers hc, hgrows.outers (Nat.lt_of_succ_lt hc)]
  exact h.next c hc

theorem IsOpen.fills (h : t.IsOpen outer) (hfills : t.Fills t') : t'.IsOpen outer := by
  cases outer with
  | none => trivial
  | some o =>
    refine ⟨hfills.size.symm ▸ h.1, fun c hc => ?_⟩
    rw [hfills.size] at hc
    rw [hfills.advances.grows.outers (hc ▸ Nat.lt_succ_self c)]
    exact h.2 c hc

/-- a class entered in open code -/
theorem Preordered.entry (h : t.Preordered) (hsound : t.Sound) (hopen : t.IsOpen outer) {node : Node}
    {body : Option Node} (hentry : Entry outer t t' c node body) : t'.Preordered := by
  have hgrows := hentry.grows
  have houter : ∀ o, outer = some o → o < t.classes.size := by
    rintro o rfl
    exact hopen.1
  refine ⟨fun k hk => ?_, fun k hk => ?_⟩
  · rcases Nat.lt_succ_iff_lt_or_eq.mp (hentry.size ▸ hk) with hold | rfl
    · exact h.grows hsound hgrows (hentry.cls ▸ hold)
    · have hhead : (t.outersOf outer).head? = outer := by cases outer <;> rfl
      rw [ClassDecl.outer, hentry.outers, hhead, hgrows.outersOf houter]
  · rcases Nat.lt_succ_iff_lt_or_eq.mp (hentry.size ▸ hk) with hold | hlast
    · have hk' : k + 1 < t.classes.size := hentry.cls ▸ hold
      rw [hgrows.outers hk', hgrows.outers (Nat.lt_of_succ_lt hk')]
      exact h.next k hk'
    · have hk' : k + 1 = t.classes.size := hlast.trans hentry.cls
      rw [hlast, hentry.outers, hgrows.outers (hk' ▸ Nat.lt_succ_self k)]
      cases outer with
      | none => exact List.nil_subset _
      | some o =>
        rcases List.mem_cons.mp (hopen.2 k hk') with rfl | ho
        · exact List.Subset.refl _
        · refine List.cons_subset.mpr ⟨List.mem_cons_of_mem _ ho, ?_⟩
          exact List.subset_cons_of_subset _
            (hsound.outers_trans k (hk' ▸ Nat.lt_succ_self k) o ho)

/-- once the code of a class is done, that of the class around it goes on -/
theorem IsOpen.leave {t₁ : Table} {node : Node}
    {body : Option Node} (hentry : Entry outer t t₁ c node body) (hopen : t.IsOpen outer)
    (hgrows : t₁.Grows t') (hsound : t'.Sound) (h : t'.IsOpen (some c)) : t'.IsOpen outer := by
  cases outer with
  | none => trivial
  | some o =>
    have ho : o ∈ (t'.decl c).outers := by
      rw [hgrows.outers hentry.lt, hentry.outers]
      exact List.mem_cons_self
    refine ⟨Nat.lt_of_lt_of_le hopen.1 (hentry.grows.trans hgrows).size, fun k hk => ?_⟩
    rcases List.mem_cons.mp (h.2 k hk) with rfl | hc
    · exact List.mem_cons_of_mem _ ho
    · exact List.mem_cons_of_mem _ (hsound.outers_trans k (hk ▸ Nat.lt_succ_self k) c hc ho)

theorem Unfolds.preordered (h : Unfolds outer t t') (hsound : t.Sound)
    (hpre : t.Preordered) (hopen : t.IsOpen outer) : t'.Preordered ∧ t'.IsOpen outer := by
  induction h with
  | fills hfills => exact ⟨hpre.fills hsound hfills, hopen.fills hfills⟩
  | enter entry inner _ ih =>
    have hinside := ih entry.sound (hpre.entry hsound hopen entry)
      ⟨entry.lt, fun k hk => by
        rw [Nat.succ.inj (hk.trans entry.size)]
        exact List.mem_cons_self⟩
    exact ⟨hinside.1, hopen.leave entry inner.grows inner.sound hinside.2⟩
  | andThen first _ ihfirst ihothers =>
    obtain ⟨hpre₁, hopen₁⟩ := ihfirst hsound hpre hopen
    exact ihothers first.sound hpre₁ hopen₁

theorem preordered_of_ofSource {source : SourceUnit} (h : ofSource source = .ok t) : t.Preordered := by
  refine ((unfolds_of_ofSource h).preordered (sound_start source) ⟨?_, ?_⟩ trivial).1
  · intro c hc
    cases hc
  · intro c hc
    cases hc

/-! ## the classes inside a class -/

section
variable (hpre : t.Preordered) (hsound : t.Sound)
include hpre

theorem Preordered.between {c j : ClassId} (hk : k < t.classes.size) (hc : c ∈ (t.decl k).outers)
    (hcj : c < j) (hjk : j ≤ k) : c ∈ (t.decl j).outers := by
  -- downwards from `k`
  induction hjk using Nat.decreasingInduction with
  | self => exact hc
  | of_succ i hik ih =>
    have hnext := hpre.next i (Nat.lt_of_le_of_lt hik hk) (ih (Nat.lt_succ_of_lt hcj))
    rcases List.mem_cons.mp hnext with rfl | hmem
    · exact absurd hcj (Nat.lt_irrefl _)
    · exact hmem

include hsound

/-- a class inside another stands directly in it or in a class that does -/
theorem Preordered.exists_child {outer : Option ClassId} (hk : k < t.classes.size)
    (h : ∀ o, outer = some o → o ∈ (t.decl k).outers) :
    ∃ c < t.classes.size, (t.decl c).outer = outer ∧ (k = c ∨ c ∈ (t.decl k).outers) := by
  induction k using Nat.strong_induction_on with
  | _ k ih =>
    by_cases hdirect : (t.decl k).outer = outer
    · exact ⟨k, hk, hdirect, .inl rfl⟩
    have houters := hpre.outers k hk
    cases hparent : (t.decl k).outer with
    | none =>
      rw [hparent] at houters hdirect
      cases outer with
      | none => exact absurd rfl hdirect
      | some o => exact absurd (h o rfl) (houters ▸ List.not_mem_nil)
    | some p =>
      rw [hparent] at houters hdirect
      have hp : p ∈ (t.decl k).outers := houters ▸ List.mem_cons_self
      have hpk := hsound.outers_lt k hk p hp
      obtain ⟨c, hc, hcouter, hcp⟩ := ih p hpk (Nat.lt_trans hpk hk) fun o ho => by
        have hmem := h o ho
        rw [houters] at hmem
        rcases List.mem_cons.mp hmem with rfl | hmem
        · exact absurd ho.symm hdirect
        · exact hmem
      refine ⟨c, hc, hcouter, .inr ?_⟩
      rcases hcp with rfl | hcp
      · exact hp
      · exact hsound.outers_trans k hk p hp hcp

end

/-! ## rows of classes -/

/-- whether a class stands inside another one; all stand in the unit -/
def isInside (t : Table) : Option ClassId → ClassId → Bool
  | none, _ => true
  | some o, k => (t.decl k).outers.contains o

def block (t : Table) (c : ClassId) : List ClassId :=
  t.classIds.filter fun k => k == c || t.isInside (some c) k

/-- the classes directly inside a class, or in the unit -/
def childrenOf (t : Table) (outer : Option ClassId) : List ClassId :=
  t.classIds.filter fun k => (t.decl k).outer == outer

theorem mem_classIds : c ∈ t.classIds ↔ c < t.classes.size :=
  List.mem_range

theorem mem_block : k ∈ t.block c ↔ k < t.classes.size ∧ (k = c ∨ c ∈ (t.decl k).outers) := by
  rw [block, List.mem_filter, mem_classIds, Bool.or_eq_true, beq_iff_eq, isInside,
    List.contains_iff_mem]

theorem mem_childrenOf : k ∈ t.childrenOf outer ↔ k < t.classes.size ∧ (t.decl k).outer = outer := by
  rw [childrenOf, List.mem_filter, mem_classIds, beq_iff_eq]

theorem pairwise_classIds (t : Table) : t.classIds.Pairwise (· < ·) :=
  List.pairwise_lt_range

section
variable (hpre : t.Preordered) (hsound : t.Sound)
include hpre hsound

/-- what stands in the earlier of two neighbours comes before what stands in the later one -/
theorem Preordered.block_lt_block {c c' x y : ClassId} (hc : c < t.classes.size)
    (hc' : c' < t.classes.size) (hsame : (t.decl c).outer = (t.decl c').outer) (hlt : c < c')
    (hx : x ∈ t.block c) (hy : y ∈ t.block c') : x < y := by
  obtain ⟨hxlt, hx⟩ := mem_block.mp hx
  obtain ⟨hylt, hy⟩ := mem_block.mp hy
  have hc'y : c' ≤ y := by
    rcases hy with rfl | hy
    · exact Nat.le_refl _
    · exact Nat.le_of_lt (hsound.outers_lt y hylt c' hy)
  by_contra hle
  have hc'x : c' ≤ x := Nat.le_trans hc'y (Nat.not_lt.mp hle)
  have hcx : c ∈ (t.decl x).outers := by
    rcases hx with rfl | hx
    · exact absurd (Nat.lt_of_lt_of_le hlt hc'x) (Nat.lt_irrefl _)
    · exact hx
  have hmem := hpre.between hxlt hcx hlt hc'x
  rw [hpre.outers c' hc', ← hsame, ← hpre.outers c hc] at hmem
  exact Nat.lt_irrefl _ (hsound.outers_lt c hc c hmem)

theorem Preordered.blocks_eq (outer : Option ClassId) :
    (t.childrenOf outer).flatMap t.block = t.classIds.filter (t.isInside outer) := by
  refine List.Pairwise.eq_of_mem_iff (r := (· < ·)) ?_ (t.pairwise_classIds.filter _) fun k => ?_
  · rw [List.pairwise_flatMap]
    refine ⟨fun c _ => t.pairwise_classIds.filter _, ?_⟩
    refine (t.pairwise_classIds.filter _).imp_of_mem fun {c c'} hc hc' hlt x hx y hy => ?_
    obtain ⟨hclt, hcouter⟩ := mem_childrenOf.mp hc
    obtain ⟨hclt', hcouter'⟩ := mem_childrenOf.mp hc'
    exact hpre.block_lt_block hsound hclt hclt' (hcouter.trans hcouter'.symm) hlt hx hy
  · rw [List.mem_flatMap, List.mem_filter, mem_classIds]
    refine ⟨?_, fun ⟨hk, hinside⟩ => ?_⟩
    · rintro ⟨c, hc, hk⟩
      obtain ⟨hclt, hcouter⟩ := mem_childrenOf.mp hc
      obtain ⟨hklt, hkc⟩ := mem_block.mp hk
      refine ⟨hklt, ?_⟩
      cases outer with
      | none => rfl
      | some o =>
        have ho : o ∈ (t.decl c).outers := List.mem_of_mem_head? hcouter
        rw [isInside, List.contains_iff_mem]
        rcases hkc with rfl | hkc
        · exact ho
        · exact hsound.outers_trans k hklt c hkc ho
    · have hmem : ∀ o, outer = some o → o ∈ (t.decl k).outers := by
        rintro o rfl
        exact List.contains_iff_mem.mp hinside
      obtain ⟨c, hclt, hcouter, hkc⟩ := hpre.exists_child hsound hk hmem
      exact ⟨c, mem_childrenOf.mpr ⟨hclt, hcouter⟩, mem_block.mpr ⟨hk, hkc⟩⟩

theorem Preordered.block_eq {c : ClassId} (hc : c < t.classes.size) :
    t.block c = c :: (t.childrenOf (some c)).flatMap t.block := by
  rw [hpre.blocks_eq hsound]
  refine List.Pairwise.eq_of_mem_iff (r := (· < ·)) (t.pairwise_classIds.filter _)
    (List.pairwise_cons.mpr ⟨fun k hk => ?_, t.pairwise_classIds.filter _⟩) fun k => ?_
  · obtain ⟨hklt, hinside⟩ := List.mem_filter.mp hk
    exact hsound.outers_lt k (mem_classIds.mp hklt) c (List.contains_iff_mem.mp hinside)
  · rw [mem_block, List.mem_cons, List.mem_filter, mem_classIds, isInside, List.contains_iff_mem]
    refine ⟨fun ⟨hk, hkc⟩ => hkc.imp_right fun h => ⟨hk, h⟩, ?_⟩
    rintro (rfl | ⟨hk, hkc⟩)
    · exact ⟨hc, .inl rfl⟩
    · exact ⟨hk, .inr hkc⟩

end

/-! ## tours -/

/-- the classes that stops enter -/
def enteredAt (stops : List Stop) : List ClassId :=
  stops.filterMap fun
    | .enter c => some c
    | .leave _ => none

theorem enteredAt_append (xs ys : List Stop) : enteredAt (xs ++ ys) = enteredAt xs ++ enteredAt ys :=
  List.filterMap_append

theorem enteredAt_flatMap (cs : List ClassId) (f : ClassId → List Stop) :
    enteredAt (cs.flatMap f) = cs.flatMap fun c => enteredAt (f c) :=
  List.filterMap_flatMap

theorem nestedClasses_eq (t : Table) (c : ClassId) : t.nestedClasses c = t.childrenOf (some c) :=
  rfl

theorem topLevelClasses_eq (t : Table) : t.topLevelClasses = t.childrenOf none := by
  refine List.filter_congr fun c _ => ?_
  cases (t.decl c).outer <;> rfl

section
variable (hpre : t.Preordered) (hsound : t.Sound)
include hpre hsound

/-- the way down ends before the classes do -/
theorem Preordered.entered_tourWithin (depth : Nat) {c : ClassId} (hc : c < t.classes.size)
    (hdepth : t.classes.size ≤ c + depth) : enteredAt (t.tourWithin depth c) = t.block c := by
  induction depth generalizing c with
  | zero => exact absurd hc (Nat.not_lt.mpr hdepth)
  | succ depth ih =>
    rw [tourWithin, enteredAt_append, hpre.block_eq hsound hc]
    show c :: enteredAt ((t.nestedClasses c).flatMap (t.tourWithin depth)) ++ [] = _
    rw [List.append_nil, enteredAt_flatMap, nestedClasses_eq]
    congr 1
    refine List.flatMap_congr fun k hk => ?_
    obtain ⟨hklt, hkouter⟩ := mem_childrenOf.mp hk
    have hck : c < k := hsound.outers_lt k hklt c (List.mem_of_mem_head? hkouter)
    refine ih hklt (Nat.le_trans hdepth ?_)
    rw [← Nat.add_assoc, Nat.add_right_comm]
    exact Nat.add_le_add_right hck depth

theorem Preordered.entered_topLevel : enteredAt (t.topLevelClasses.flatMap t.tour) = t.classIds := by
  rw [enteredAt_flatMap, topLevelClasses_eq]
  have hblocks : ∀ c ∈ t.childrenOf none, enteredAt (t.tour c) = t.block c := fun c hc =>
    hpre.entered_tourWithin hsound _ (mem_childrenOf.mp hc).1 (Nat.le_add_left _ _)
  rw [List.flatMap_congr hblocks, hpre.blocks_eq hsound]
  exact List.filter_eq_self.mpr fun _ _ => rfl

theorem Preordered.mem_entered_tour {c : ClassId} (hc : c < t.classes.size) : c ∈ enteredAt (t.tour c) := by
  rw [tour, hpre.entered_tourWithin hsound _ hc (Nat.le_add_left _ _)]
  exact mem_block.mpr ⟨hc, .inl rfl⟩

end

end Table

end StaticPromotion
