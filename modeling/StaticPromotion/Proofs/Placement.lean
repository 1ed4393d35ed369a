import StaticPromotion.Proofs.Nesting

/-!
# Classes stand where their nodes stand

The pass over a unit is told whose code it goes over, and writes that down with each class that it enters. Here the places of the
tree are set beside it: where each class is declared, and where the bodies stand that can hold classes. Then what is written
down with a class is what contains it in the tree.

* `Container`             what can hold a class: the body of a class, or the code of a method;
* `Placement`             the ways from the root to the declarations of classes and to containers;
* `Table.Holds c x`       by the table, the class `c` stands in the container `x`; `Table.Around owner x` is the same for code;
* `Table.Placed P`        `P` tells the places of what is in the table, and a container holds just the classes declared below it;
* `Placement.Ready A q`   nothing is placed from `q` on downwards yet, and the containers above `q` are those in `A`;
* `Indexes.placed`        so the pass goes on: by induction over its derivation;
* `Table.placed_of_ofSource`    for the table of a unit.
-/

namespace StaticPromotion

variable {step : Step}

inductive Container where
  | body (c : ClassId)
  | code (m : MethodId)
deriving DecidableEq

structure Placement where
  site : ClassId → Option Way
  spot : Container → Option Way

namespace Table

variable {t t' t'' : Table}

/-! ## what holds a class, by the table -/

def Holds (t : Table) (c : ClassId) : Container → Prop
  | .body k => k ∈ (t.decl c).outers
  | .code m => t.declaredWithin c m = true

/-- what holds the classes declared in code of `outer` -/
def Around (t : Table) : Option CodeOwner → Container → Prop
  | none, _ => False
  | some o, .body k => k = o.cls ∨ k ∈ (t.decl o.cls).outers
  | some o, .code m => o.method = some m ∨ t.declaredWithin o.cls m = true

/-- no class and no code is added -/
structure Still (t t' : Table) : Prop where
  source : t'.source = t.source
  declared : t'.declared = t.declared
  size : t'.classes.size = t.classes.size
  fixed : ∀ k, (t'.decl k).fixed = (t.decl k).fixed
  coded : ∀ m, t'.coded m = t.coded m

theorem Still.refl (t : Table) : t.Still t :=
  ⟨rfl, rfl, rfl, fun _ => rfl, fun _ => rfl⟩

theorem Still.trans (h : t.Still t') (h' : t'.Still t'') : t.Still t'' where
  source := h'.source.trans h.source
  declared := h'.declared.trans h.declared
  size := h'.size.trans h.size
  fixed k := (h'.fixed k).trans (h.fixed k)
  coded m := (h'.coded m).trans (h.coded m)

theorem still_setScopes (t : Table) (s : Scopes) : t.Still { t with scopes := s } :=
  ⟨rfl, rfl, rfl, fun _ => rfl, fun _ => rfl⟩

theorem Amends.still (h : t.Amends t') : t.Still t' :=
  ⟨h.source, h.declared, h.size, fun k => congrArg (·.2) (h.settled k), h.coded⟩

theorem still_nameLocal (t : Table) (scope : ScopeId) (c : ClassId) : t.Still (t.nameLocal scope c) := by
  unfold nameLocal
  split
  · exact .refl t
  · exact still_setScopes t _

theorem holds_congr {c : ClassId} (h : ∀ k ∈ c :: (t.decl c).outers, (t'.decl k).fixed = (t.decl k).fixed)
    (x : Container) : t'.Holds c x ↔ t.Holds c x := by
  have houters : (t'.decl c).outers = (t.decl c).outers :=
    congrArg (·.2.1) (h c List.mem_cons_self)
  cases x with
  | body k => rw [Holds, Holds, houters]
  | code m =>
    rw [Holds, Holds, declaredWithin, declaredWithin, houters, List.any_eq_true, List.any_eq_true]
    refine exists_congr fun k => and_congr_right fun hk => ?_
    rw [show (t'.decl k).enclosingMethod = (t.decl k).enclosingMethod from
      congrArg (·.2.2.1) (h k hk)]

theorem around_congr {outer : Option CodeOwner}
    (h : ∀ o, outer = some o → ∀ k ∈ o.cls :: (t.decl o.cls).outers,
      (t'.decl k).fixed = (t.decl k).fixed) (x : Container) : t'.Around outer x ↔ t.Around outer x := by
  cases outer with
  | none => exact Iff.rfl
  | some o =>
    cases x with
    | body k => exact or_congr_right (holds_congr (h o rfl) (.body k))
    | code m => exact or_congr_right (holds_congr (h o rfl) (.code m))

theorem Still.holds (h : t.Still t') (c : ClassId) (x : Container) : t'.Holds c x ↔ t.Holds c x :=
  holds_congr (fun k _ => h.fixed k) x

theorem Still.around (h : t.Still t') (outer : Option CodeOwner) : t'.Around outer = t.Around outer :=
  funext fun x => propext (around_congr (fun _ _ k _ => h.fixed k) x)

/-- in its own members, a class adds its body to what holds it -/
theorem around_members (t : Table) (c : ClassId) (x : Container) :
    t.Around (some ⟨c, none⟩) x ↔ x = .body c ∨ t.Holds c x := by
  cases x with
  | body k => simp [Around, Holds]
  | code m => simp [Around, Holds]

/-- and in the code of a method, that code is added -/
theorem around_method (t : Table) (c : ClassId) (m : MethodId) (x : Container) :
    t.Around (some ⟨c, some m⟩) x ↔ x = .code m ∨ t.Around (some ⟨c, none⟩) x := by
  cases x with
  | body k => simp [Around]
  | code m' =>
    have hcode : (some m = some m') ↔ m' = m := ⟨fun h => (Option.some.inj h).symm, fun h => h ▸ rfl⟩
    simp [Around, hcode]

end Table

/-! ## places -/

namespace Placement

variable {P P' P'' : Placement} {A : Container → Prop} {D E : Way → Prop} {p q : Way}

/-- the containers that are placed above `q`, or at it, are those in `A`; and the body of a class is only above it -/
structure Meets (P : Placement) (A : Container → Prop) (q : Way) : Prop where
  around : ∀ x r, P.spot x = some r → (r <+: q ↔ A x)
  known : ∀ x, A x → ∃ r, P.spot x = some r
  free : ∀ c, P.spot (.body c) ≠ some q

structure Ready (P : Placement) (A : Container → Prop) (q : Way) : Prop extends P.Meets A q where
  noSite : ∀ c r, P.site c = some r → ¬ q <+: r
  noSpot : ∀ x r, P.spot x = some r → q <+: r → r = q

/-- the same for what stands below `q` -/
structure Clear (P : Placement) (A : Container → Prop) (q : Way) : Prop where
  around : ∀ x r, P.spot x = some r → (r <+: q ↔ A x)
  known : ∀ x, A x → ∃ r, P.spot x = some r
  noSite : ∀ c r, P.site c = some r → ¬ q <+: r
  noSpot : ∀ x r, P.spot x = some r → q <+: r → r = q

theorem Ready.clear (h : P.Ready A q) : P.Clear A q :=
  ⟨h.around, h.known, h.noSite, h.noSpot⟩

theorem Clear.ready (h : P.Clear A q) (hfree : ∀ c, P.spot (.body c) ≠ some q) : P.Ready A q :=
  ⟨⟨h.around, h.known, hfree⟩, h.noSite, h.noSpot⟩

theorem Clear.down (h : P.Clear A p) (hpq : p <+: q) (hne : p ≠ q) : P.Ready A q := by
  refine ⟨⟨fun x r hr => ⟨fun hle => ?_, fun hx => ?_⟩, h.known, fun c hc => ?_⟩, fun c r hr hle => ?_,
    fun x r hr hle => ?_⟩
  · rcases List.prefix_or_prefix_of_prefix hle hpq with hrp | hpr
    · exact (h.around x r hr).mp hrp
    · have heq := h.noSpot x r hr hpr
      exact (h.around x r hr).mp (heq ▸ List.prefix_rfl)
  · exact ((h.around x r hr).mpr hx).trans hpq
  · exact hne (h.noSpot _ q hc hpq).symm
  · exact h.noSite c r hr (hpq.trans hle)
  · have heq := h.noSpot x r hr (hpq.trans hle)
    rw [heq] at hle
    exact absurd (hpq.eq_of_length_le hle.length_le) hne

/-- what is placed stays, new sites are in `D` and new spots in `E` -/
structure Extends (P P' : Placement) (D E : Way → Prop) : Prop where
  site : ∀ c r, P.site c = some r → P'.site c = some r
  spot : ∀ x r, P.spot x = some r → P'.spot x = some r
  newSite : ∀ c r, P'.site c = some r → P.site c = some r ∨ D r
  newSpot : ∀ x r, P'.spot x = some r → P.spot x = some r ∨ E r

theorem Extends.refl (P : Placement) (D E : Way → Prop) : P.Extends P D E :=
  ⟨fun _ _ h => h, fun _ _ h => h, fun _ _ h => .inl h, fun _ _ h => .inl h⟩

theorem Extends.trans (h : P.Extends P' D E) (h' : P'.Extends P'' D E) : P.Extends P'' D E where
  site c r hr := h'.site c r (h.site c r hr)
  spot x r hr := h'.spot x r (h.spot x r hr)
  newSite c r hr := (h'.newSite c r hr).elim (h.newSite c r) .inr
  newSpot x r hr := (h'.newSpot x r hr).elim (h.newSpot x r) .inr

theorem Extends.mono {D' E' : Way → Prop} (h : P.Extends P' D E) (hD : ∀ r, D r → D' r)
    (hE : ∀ r, E r → E' r) : P.Extends P' D' E' :=
  ⟨h.site, h.spot, fun c r hr => (h.newSite c r hr).imp_right (hD r),
    fun x r hr => (h.newSpot x r hr).imp_right (hE r)⟩

/-- what surrounds a way stays while no container is placed above it -/
theorem Meets.extends (h : P.Meets A q) (hext : P.Extends P' D E) (hE : ∀ r, E r → ¬ r <+: q) :
    P'.Meets A q := by
  refine ⟨fun x r hr => ?_, fun x hx => ?_, fun c hc => ?_⟩
  · rcases hext.newSpot x r hr with hold | hnew
    · exact h.around x r hold
    · refine ⟨fun hle => absurd hle (hE r hnew), fun hx => ?_⟩
      obtain ⟨old, hold⟩ := h.known x hx
      have heq : r = old := Option.some.inj (hr.symm.trans (hext.spot x old hold))
      exact heq ▸ (h.around x old hold).mpr hx
  · obtain ⟨r, hr⟩ := h.known x hx
    exact ⟨r, hext.spot x r hr⟩
  · rcases hext.newSpot _ q hc with hold | hnew
    · exact h.free c hold
    · exact hE q hnew List.prefix_rfl

theorem Ready.extends (h : P.Ready A q) (hext : P.Extends P' D E) (hD : ∀ r, D r → ¬ q <+: r)
    (hE : ∀ r, E r → Apart q r) : P'.Ready A q := by
  refine ⟨h.toMeets.extends hext fun r hr => (hE r hr).2, fun c r hr => ?_, fun x r hr => ?_⟩
  · rcases hext.newSite c r hr with hold | hnew
    · exact h.noSite c r hold
    · exact hD r hnew
  · rcases hext.newSpot x r hr with hold | hnew
    · exact h.noSpot x r hold
    · exact fun hle => absurd hle (hE r hnew).1

/-! ## new places -/

/-- the class `c` is declared at `p`, and its body, if it has one, stands at the way in `body` -/
def enter (P : Placement) (c : ClassId) (p : Way) (body : Option Way) : Placement where
  site k := if k = c then some p else P.site k
  spot x := if x = .body c then body else P.spot x

/-- the code of the method `m` stands at `q` -/
def addCode (P : Placement) (m : MethodId) (q : Way) : Placement where
  site := P.site
  spot x := if x = .code m then some q else P.spot x

theorem site_enter (P : Placement) (c : ClassId) (p : Way) (body : Option Way) (k : ClassId) :
    (P.enter c p body).site k = if k = c then some p else P.site k :=
  rfl

theorem spot_enter (P : Placement) (c : ClassId) (p : Way) (body : Option Way) (x : Container) :
    (P.enter c p body).spot x = if x = .body c then body else P.spot x :=
  rfl

theorem spot_addCode (P : Placement) (m : MethodId) (q : Way) (x : Container) :
    (P.addCode m q).spot x = if x = .code m then some q else P.spot x :=
  rfl

theorem extends_enter {c : ClassId} (hsite : P.site c = none) (hspot : P.spot (.body c) = none) (p : Way)
    (body : Option Way) : P.Extends (P.enter c p body) (· = p) (fun r => body = some r) := by
  refine ⟨fun k r hr => ?_, fun x r hr => ?_, fun k r hr => ?_, fun x r hr => ?_⟩
  · have hne : k ≠ c := fun heq => by rw [heq, hsite] at hr; cases hr
    rwa [site_enter, if_neg hne]
  · have hne : x ≠ .body c := fun heq => by rw [heq, hspot] at hr; cases hr
    rwa [spot_enter, if_neg hne]
  · by_cases hk : k = c
    · rw [site_enter, if_pos hk] at hr
      exact .inr (Option.some.inj hr).symm
    · rw [site_enter, if_neg hk] at hr
      exact .inl hr
  · by_cases hx : x = .body c
    · rw [spot_enter, if_pos hx] at hr
      exact .inr hr
    · rw [spot_enter, if_neg hx] at hr
      exact .inl hr

theorem extends_addCode {m : MethodId} (hspot : P.spot (.code m) = none) (q : Way) :
    P.Extends (P.addCode m q) (fun _ => False) (· = q) := by
  refine ⟨fun _ _ hr => hr, fun x r hr => ?_, fun _ _ hr => .inl hr, fun x r hr => ?_⟩
  · have hne : x ≠ .code m := fun heq => by rw [heq, hspot] at hr; cases hr
    rwa [spot_addCode, if_neg hne]
  · by_cases hx : x = .code m
    · rw [spot_addCode, if_pos hx] at hr
      exact .inr (Option.some.inj hr).symm
    · rw [spot_addCode, if_neg hx] at hr
      exact .inl hr

theorem Meets.congr {B : Container → Prop} (h : P.Meets A q) (hAB : ∀ x, B x ↔ A x) : P.Meets B q :=
  ⟨fun x r hr => (h.around x r hr).trans (hAB x).symm, fun x hx => h.known x ((hAB x).mp hx), h.free⟩

/-- a container is placed at a clear way: then the way is clear for what that container holds -/
theorem Clear.contain {B : Container → Prop} {y : Container} (h : P.Clear A q)
    (hy : P'.spot y = some q) (hothers : ∀ x, x ≠ y → P'.spot x = P.spot x)
    (hsites : ∀ c r, P'.site c = some r → P.site c = some r ∨ ¬ q <+: r)
    (hfresh : P.spot y = none) (hB : ∀ x, B x ↔ x = y ∨ A x) : P'.Clear B q := by
  have hcases : ∀ x r, P'.spot x = some r → (x = y ∧ r = q) ∨ (x ≠ y ∧ P.spot x = some r) := by
    intro x r hr
    by_cases hx : x = y
    · rw [hx, hy] at hr
      exact .inl ⟨hx, (Option.some.inj hr).symm⟩
    · rw [hothers x hx] at hr
      exact .inr ⟨hx, hr⟩
  refine ⟨fun x r hr => ?_, fun x hx => ?_, fun c r hr => ?_, fun x r hr hle => ?_⟩
  · rcases hcases x r hr with ⟨hx, rfl⟩ | ⟨hx, hold⟩
    · exact ⟨fun _ => (hB x).mpr (.inl hx), fun _ => List.prefix_rfl⟩
    · rw [hB x, or_iff_right hx]
      exact h.around x r hold
  · rcases (hB x).mp hx with rfl | hx
    · exact ⟨q, hy⟩
    · obtain ⟨r, hr⟩ := h.known x hx
      have hne : x ≠ y := fun heq => by rw [heq, hfresh] at hr; cases hr
      exact ⟨r, (hothers x hne).trans hr⟩
  · rcases hsites c r hr with hold | hnew
    · exact h.noSite c r hold
    · exact hnew
  · rcases hcases x r hr with ⟨_, rfl⟩ | ⟨_, hold⟩
    · rfl
    · exact h.noSpot x r hold hle

end Placement

namespace Table

variable {t t' : Table} {P : Placement} {root : Node}

open Placement

/-! ## tables with places -/

/-- the body of a class declared at `p` by `node` -/
def BodyAt (node : Node) (p : Way) (body : Option Node) (spot : Option Way) : Prop :=
  (body = none ∧ spot = none) ∨
    ∃ b i, body = some b ∧ node.children[i]? = some b ∧ spot = some (p ++ [i])

/-- `P` tells where the classes of a table, their bodies and the code of its methods stand in a tree -/
structure Tells (root : Node) (t : Table) (P : Placement) : Prop where
  /-- a class stands at its declaration, and its body is a child of that -/
  sited : ∀ c < t.classes.size, ∃ p n, P.site c = some p ∧ root.at? p = some n ∧
    (n.key, c) ∈ t.declared ∧ n.Enters (t.decl c).body ∧
    BodyAt n p (t.decl c).body (P.spot (.body c))
  /-- the code of a method is a child of its declaration, and that stands in the body of its class -/
  coded : ∀ m n, t.coded m = some n → ∃ q i b r, root.at? q = some n ∧
    n.child? "body" = some b ∧ n.children[i]? = some b ∧ P.spot (.code m) = some (q ++ [i]) ∧
    P.spot (.body m.owner) = some r ∧ r <+: q

structure Placed (root : Node) (t : Table) (P : Placement) : Prop extends Tells root t P where
  outers_lt : ∀ c < t.classes.size, ∀ o ∈ (t.decl c).outers, o < c
  unsited : ∀ c, t.classes.size ≤ c → P.site c = none ∧ P.spot (.body c) = none
  uncoded : ∀ m, t.coded m = none → P.spot (.code m) = none
  nested : ∀ c p, P.site c = some p → P.Meets (t.Holds c) p

theorem Placed.lt (h : Placed root t P) {c : ClassId} {p : Way} (hp : P.site c = some p) :
    c < t.classes.size := by
  rcases Nat.lt_or_ge c t.classes.size with hlt | hge
  · exact hlt
  · rw [(h.unsited c hge).1] at hp
    cases hp

theorem Placed.still (h : Placed root t P) (hstill : t.Still t') : Placed root t' P := by
  have hbody : ∀ c, (t'.decl c).body = (t.decl c).body := fun c => congrArg (·.1) (hstill.fixed c)
  have houters : ∀ c, (t'.decl c).outers = (t.decl c).outers :=
    fun c => congrArg (·.2.1) (hstill.fixed c)
  refine ⟨⟨fun c hc => ?_, fun m n hm => ?_⟩, fun c hc => ?_, fun c hc => ?_, fun m hm => ?_,
    fun c p hp => (h.nested c p hp).congr (hstill.holds c)⟩
  · rw [hbody, hstill.declared]
    exact h.sited c (hstill.size ▸ hc)
  · exact h.coded m n ((hstill.coded m).symm.trans hm)
  · rw [houters]
    exact h.outers_lt c (hstill.size ▸ hc)
  · exact h.unsited c (hstill.size ▸ hc)
  · exact h.uncoded m ((hstill.coded m).symm.trans hm)

section
variable {outer : Option CodeOwner} {node : Node} {body : Option Node} {parent : ScopeId} {spot : Option Way}

/-- the classes around code of a class in the table are in the table -/
theorem Placed.lt_of_around (h : Placed root t P)
    (howner : ∀ o, outer = some o → o.cls < t.classes.size) {o : CodeOwner} (ho : outer = some o)
    {k : ClassId} (hk : k ∈ o.cls :: (t.decl o.cls).outers) : k < t.classes.size := by
  rcases List.mem_cons.mp hk with rfl | hk
  · exact howner o ho
  · exact Nat.lt_trans (h.outers_lt _ (howner o ho) k hk) (howner o ho)

theorem Registers.holds (h : Registers outer node body parent t t') (hplaced : Placed root t P)
    (howner : ∀ o, outer = some o → o.cls < t.classes.size) (x : Container) :
    t'.Holds t.classes.size x ↔ t.Around outer x := by
  have houters : (t'.decl t.classes.size).outers = t.outersOf (outer.map (·.cls)) :=
    congrArg (·.2.1) h.fixed
  have henclosing : (t'.decl t.classes.size).enclosingMethod = outer.bind (·.method) :=
    congrArg (·.2.2.1) h.fixed
  cases outer with
  | none =>
    cases x with
    | body k =>
      rw [Holds, houters]
      exact iff_of_false List.not_mem_nil id
    | code m =>
      rw [Holds, declaredWithin, houters, List.any_cons, henclosing]
      exact iff_of_false Bool.false_ne_true id
  | some o =>
    have hfixed : ∀ k ∈ o.cls :: (t.decl o.cls).outers, (t'.decl k).fixed = (t.decl k).fixed :=
      fun k hk => congrArg (·.2) (h.settled k (hplaced.lt_of_around howner rfl hk))
    cases x with
    | body k =>
      rw [Holds, houters]
      exact List.mem_cons
    | code m =>
      have hcode : t'.declaredWithin o.cls m = true ↔ t.declaredWithin o.cls m = true :=
        holds_congr hfixed (.code m)
      have hsame : (t'.decl o.cls).outers = (t.decl o.cls).outers :=
        congrArg (·.2.1) (hfixed _ List.mem_cons_self)
      rw [Holds, declaredWithin, houters, List.any_cons, henclosing, Bool.or_eq_true, beq_iff_eq]
      refine or_congr_right ?_
      rw [declaredWithin, hsame] at hcode
      exact hcode

theorem BodyAt.mem {p b : Way} (h : BodyAt node p body spot) (hb : spot = some b) :
    ∃ i n, b = p ++ [i] ∧ body = some n ∧ node.children[i]? = some n := by
  rcases h with ⟨_, hnone⟩ | ⟨n, i, hbody, hn, hspot⟩
  · rw [hb] at hnone
    cases hnone
  · exact ⟨i, n, Option.some.inj (hb.symm.trans hspot), hbody, hn⟩

theorem exists_bodyAt (p : Way) (h : ∀ b, body = some b → b ∈ node.children) :
    ∃ spot, BodyAt node p body spot := by
  cases body with
  | none => exact ⟨none, .inl ⟨rfl, rfl⟩⟩
  | some b =>
    obtain ⟨i, hi⟩ := List.getElem?_of_mem (h b rfl)
    exact ⟨some (p ++ [i]), .inr ⟨b, i, rfl, hi, rfl⟩⟩

theorem BodyAt.below {p b : Way} (h : BodyAt node p body spot) (hb : spot = some b) : p <+: b ∧ p ≠ b := by
  obtain ⟨i, _, rfl, _⟩ := h.mem hb
  exact ⟨List.prefix_append p [i], fun heq => not_concat_le p i (heq ▸ List.prefix_rfl)⟩

theorem Placed.registers {p : Way} (h : Placed root t P) (hreg : Registers outer node body parent t t')
    (howner : ∀ o, outer = some o → o.cls < t.classes.size) (hat : root.at? p = some node)
    (henters : node.Enters body) (hmeets : P.Meets (t.Around outer) p) (hbody : BodyAt node p body spot)
    (hready : ∀ b, spot = some b → P.Ready (t.Around outer) b) :
    Placed root t' (P.enter t.classes.size p spot) := by
  have hext := extends_enter (h.unsited _ (Nat.le_refl _)).1 (h.unsited _ (Nat.le_refl _)).2 p spot
  have hfixed : ∀ k < t.classes.size, (t'.decl k).fixed = (t.decl k).fixed :=
    fun k hk => congrArg (·.2) (hreg.settled k hk)
  have hnew : ∀ k, k < t'.classes.size → k < t.classes.size ∨ k = t.classes.size := by
    intro k hk
    rw [hreg.size] at hk
    exact Nat.lt_succ_iff_lt_or_eq.mp hk
  refine ⟨⟨fun c hc => ?_, fun m n hm => ?_⟩, fun c hc o ho => ?_, fun c hc => ?_, fun m hm => ?_,
    fun c q hq => ?_⟩
  · rcases hnew c hc with hlt | rfl
    · obtain ⟨q, n, hsite, hn, hdeclared, hn', hbody'⟩ := h.sited c hlt
      have hne : Container.body c ≠ .body t.classes.size := fun heq =>
        Nat.ne_of_lt hlt (Container.body.inj heq)
      refine ⟨q, n, hext.site c q hsite, hn, ?_, ?_, ?_⟩
      · rw [hreg.declared]
        exact List.mem_cons_of_mem _ hdeclared
      · rwa [show (t'.decl c).body = (t.decl c).body from congrArg (·.1) (hfixed c hlt)]
      · rwa [show (t'.decl c).body = (t.decl c).body from congrArg (·.1) (hfixed c hlt), spot_enter,
          if_neg hne]
    · have hbody' : (t'.decl t.classes.size).body = body := congrArg (·.1) hreg.fixed
      refine ⟨p, node, by rw [site_enter, if_pos rfl], hat, ?_, hbody' ▸ henters, ?_⟩
      · rw [hreg.declared]
        exact List.mem_cons_self
      · rwa [hbody', spot_enter, if_pos rfl]
  · obtain ⟨q, i, b, r, hn, hb, hi, hcode, howned, hle⟩ := h.coded m n ((hreg.coded m).symm.trans hm)
    exact ⟨q, i, b, r, hn, hb, hi, hext.spot _ _ hcode, hext.spot _ _ howned, hle⟩
  · rcases hnew c hc with hlt | rfl
    · rw [show (t'.decl c).outers = (t.decl c).outers from congrArg (·.2.1) (hfixed c hlt)] at ho
      exact h.outers_lt c hlt o ho
    · rw [show (t'.decl t.classes.size).outers = t.outersOf (outer.map (·.cls)) from
        congrArg (·.2.1) hreg.fixed] at ho
      cases outer with
      | none => exact absurd ho List.not_mem_nil
      | some around => exact h.lt_of_around howner rfl ho
  · rw [hreg.size] at hc
    have hne : c ≠ t.classes.size := fun heq => Nat.not_succ_le_self _ (heq ▸ hc)
    rw [site_enter, if_neg hne, spot_enter, if_neg fun heq => hne (Container.body.inj heq)]
    exact h.unsited c (Nat.le_of_succ_le hc)
  · rw [spot_enter, if_neg (by simp)]
    exact h.uncoded m ((hreg.coded m).symm.trans hm)
  · by_cases hc : c = t.classes.size
    · rw [hc, site_enter, if_pos rfl] at hq
      cases hq
      rw [hc]
      refine (hmeets.extends hext fun r hr => ?_).congr (hreg.holds h howner)
      obtain ⟨i, _, rfl, _⟩ := hbody.mem hr
      exact not_concat_le _ _
    · rw [site_enter, if_neg hc] at hq
      have hlt := h.lt hq
      refine ((h.nested c q hq).extends hext fun r hr hle => ?_).congr (holds_congr fun k hk => ?_)
      · exact (hready r hr).noSite c q hq hle
      · rcases List.mem_cons.mp hk with rfl | hk
        · exact hfixed _ hlt
        · exact hfixed k (Nat.lt_trans (h.outers_lt c hlt k hk) hlt)

theorem Placed.clear_members {p b : Way} (h : Placed root t P)
    (hreg : Registers outer node body parent t t') (howner : ∀ o, outer = some o → o.cls < t.classes.size)
    (hbody : BodyAt node p body (some b)) (hready : P.Ready (t.Around outer) b) :
    (P.enter t.classes.size p (some b)).Clear (t'.Around (some ⟨t.classes.size, none⟩)) b := by
  refine hready.clear.contain (by rw [spot_enter, if_pos rfl])
    (fun x hx => by rw [spot_enter, if_neg hx]) (fun c r hr => ?_)
    (h.unsited _ (Nat.le_refl _)).2 fun x => ?_
  · by_cases hc : c = t.classes.size
    · rw [site_enter, if_pos hc] at hr
      cases hr
      obtain ⟨i, _, rfl, _⟩ := hbody.mem rfl
      exact .inr (not_concat_le _ _)
    · rw [site_enter, if_neg hc] at hr
      exact .inl hr
  · rw [around_members, hreg.holds h howner]

end

section
variable {c : ClassId} {member b : Node} {id : MethodId} {q : Way} {i : Nat}

theorem Adds.around (h : Adds c member id t t') (outer : Option CodeOwner) (x : Container) :
    t'.Around outer x ↔ t.Around outer x :=
  around_congr (fun _ _ k _ => congrArg (·.2) (h.settled k)) x

theorem Placed.adds (h : Placed root t P) (hadds : Adds c member id t t') (hat : root.at? q = some member)
    (hb : member.child? "body" = some b) (hi : member.children[i]? = some b)
    (hready : P.Ready (t.Around (some ⟨c, none⟩)) q) : Placed root t' (P.addCode id (q ++ [i])) := by
  have hext := extends_addCode (h.uncoded id hadds.fresh) (q ++ [i])
  have hfixed : ∀ k, (t'.decl k).fixed = (t.decl k).fixed :=
    fun k => congrArg (·.2) (hadds.settled k)
  have hbody : ∀ k, (t'.decl k).body = (t.decl k).body := fun k => congrArg (·.1) (hfixed k)
  have houters : ∀ k, (t'.decl k).outers = (t.decl k).outers := fun k => congrArg (·.2.1) (hfixed k)
  refine ⟨⟨fun k hk => ?_, fun m n hm => ?_⟩, fun k hk => ?_, fun k hk => ?_, fun m hm => ?_,
    fun k r hr => ?_⟩
  · rw [hbody, hadds.declared, spot_addCode, if_neg (by simp)]
    exact h.sited k (hadds.size ▸ hk)
  · by_cases hid : m = id
    · rw [hid, hadds.added] at hm
      cases hm
      obtain ⟨r, hr⟩ := hready.known (.body c) (.inl rfl)
      refine ⟨q, i, b, r, hat, hb, hi, ?_, ?_, (hready.around _ r hr).mpr (.inl rfl)⟩
      · rw [hid, spot_addCode, if_pos rfl]
      · rw [hid, hadds.owner]
        exact hext.spot _ r hr
    · rw [hadds.coded m hid] at hm
      obtain ⟨q', i', b', r, hn, hb', hi', hcode, howned, hle⟩ := h.coded m n hm
      exact ⟨q', i', b', r, hn, hb', hi', hext.spot _ _ hcode, hext.spot _ _ howned, hle⟩
  · rw [houters]
    exact h.outers_lt k (hadds.size ▸ hk)
  · rw [spot_addCode, if_neg (by simp)]
    exact h.unsited k (hadds.size ▸ hk)
  · have hid : m ≠ id := fun heq => by rw [heq, hadds.added] at hm; cases hm
    rw [spot_addCode, if_neg fun heq => hid (Container.code.inj heq)]
    exact h.uncoded m ((hadds.coded m hid).symm.trans hm)
  · refine ((h.nested k r hr).extends hext fun s hs hle => ?_).congr (holds_congr fun k' _ => hfixed k')
    rw [hs] at hle
    exact hready.noSite k r hr ((List.prefix_append q [i]).trans hle)

theorem Placed.ready_code (h : Placed root t P) (hadds : Adds c member id t t')
    (hready : P.Ready (t.Around (some ⟨c, none⟩)) q) (i : Nat) :
    (P.addCode id (q ++ [i])).Ready (t'.Around (some ⟨c, some id⟩)) (q ++ [i]) := by
  have hbelow := hready.clear.down (List.prefix_append q [i]) (by simp)
  have hclear : (P.addCode id (q ++ [i])).Clear (t'.Around (some ⟨c, some id⟩)) (q ++ [i]) := by
    refine hbelow.clear.contain (by rw [spot_addCode, if_pos rfl])
      (fun x hx => by rw [spot_addCode, if_neg hx]) (fun _ _ hr => .inl hr)
      (h.uncoded id hadds.fresh) fun x => ?_
    rw [around_method, hadds.around]
  refine hclear.ready fun k hk => ?_
  rw [spot_addCode, if_neg (by simp)] at hk
  exact hbelow.free k hk

end

/-! ## what is left to do, with its places -/

/-- parts to go over, each at a way that is ready, and these apart -/
structure Awaits (root : Node) (t : Table) (P : Placement) (owner : Option CodeOwner)
    (places : List (Node × Way)) : Prop where
  stands : ∀ e ∈ places, root.at? e.2 = some e.1
  ready : ∀ e ∈ places, P.Ready (t.Around owner) e.2
  apart : (places.map (·.2)).Pairwise Apart

/-- the rest of the plan of `node`, which stands at `p` -/
structure Rest (root : Node) (t : Table) (P : Placement) (owner : CodeOwner) (node : Node) (p : Way)
    (rest : List Step) (places : List (Node × Way)) : Prop where
  lt : owner.cls < t.classes.size
  stands : root.at? p = some node
  steps : ∀ step ∈ rest, step.Of node
  meets : P.Meets (t.Around (some owner)) p
  seats : places.map (·.1) = Node.seats rest
  awaits : Awaits root t P (some owner) places
  below : ∀ e ∈ places, p <+: e.2 ∧ p ≠ e.2
  children : node.construct = .creation →
    ∀ e ∈ places, ∃ i, e.2 = p ++ [i] ∧ node.children[i]? = some e.1
  /-- a declaration has no other part -/
  alone : ∀ d, .localClass d ∈ rest →
    rest = [.localClass d] ∧ P.Ready (t.Around (some owner)) p

/-- what is left to do has its places; sites come in `D` and containers in `E` -/
inductive Seated (root : Node) (t : Table) (P : Placement) : Duty → (D E : Way → Prop) → Prop
  | code {owner : CodeOwner} {node : Node} {scope : ScopeId} {p : Way} {D E : Way → Prop}
      (lt : owner.cls < t.classes.size) (stands : root.at? p = some node)
      (ready : P.Ready (t.Around (some owner)) p) (covers : ∀ r, p <+: r → D r ∧ E r) :
      Seated root t P (.code owner node scope) D E
  | steps {owner : CodeOwner} {node : Node} {here inner : ScopeId} {p : Way} {rest : List Step}
      {places : List (Node × Way)} {D E : Way → Prop}
      (left : Rest root t P owner node p rest places)
      (covers : ∀ r, p <+: r → D r ∧ (p ≠ r → E r)) :
      Seated root t P (.steps owner here inner rest) D E
  | cls {outer : Option CodeOwner} {node : Node} {body : Option Node} {parent : ScopeId} {p : Way}
      {spot : Option Way} {D E : Way → Prop}
      (lt : ∀ o, outer = some o → o.cls < t.classes.size) (stands : root.at? p = some node)
      (enters : node.Enters body) (meets : P.Meets (t.Around outer) p)
      (bodyAt : BodyAt node p body spot)
      (ready : ∀ b, spot = some b → P.Ready (t.Around outer) b) (site : D p)
      (covers : ∀ b, spot = some b → ∀ r, b <+: r → D r ∧ E r) :
      Seated root t P (.cls outer node body parent) D E
  | members {c : ClassId} {rest : List Node} {places : List (Node × Way)} {D E : Way → Prop}
      (lt : c < t.classes.size) (parts : places.map (·.1) = rest)
      (awaits : Awaits root t P (some ⟨c, none⟩) places)
      (covers : ∀ e ∈ places, ∀ r, e.2 <+: r → D r ∧ E r) :
      Seated root t P (.members c rest) D E
  | member {c : ClassId} {node : Node} {q : Way} {D E : Way → Prop} (lt : c < t.classes.size)
      (stands : root.at? q = some node) (ready : P.Ready (t.Around (some ⟨c, none⟩)) q)
      (covers : ∀ r, q <+: r → D r ∧ E r) : Seated root t P (.member c node) D E
  | own {c : ClassId} {codes : List Node} {places : List (Node × Way)} {D E : Way → Prop}
      (lt : c < t.classes.size) (parts : places.map (·.1) = codes)
      (awaits : Awaits root t P (some ⟨c, none⟩) places)
      (covers : ∀ e ∈ places, ∀ r, e.2 <+: r → D r ∧ E r) : Seated root t P (.own c codes) D E
  | unit {rest : List Node} {places : List (Node × Way)} {D E : Way → Prop}
      (parts : places.map (·.1) = rest) (awaits : Awaits root t P none places)
      (covers : ∀ e ∈ places, ∀ r, e.2 <+: r → D r ∧ E r) : Seated root t P (.unit rest) D E

section
variable {owner : CodeOwner} {outer : Option CodeOwner} {duty : Duty} {D E : Way → Prop} {P' : Placement}

variable {places : List (Node × Way)} {node : Node} {p : Way} {e : Node × Way}

theorem Awaits.nil (root : Node) (t : Table) (P : Placement) (outer : Option CodeOwner) : Awaits root t P outer [] :=
  ⟨List.forall_mem_nil _, List.forall_mem_nil _, .nil⟩

theorem Awaits.still (h : Awaits root t P outer places)
    (hstill : t.Still t') : Awaits root t' P outer places :=
  ⟨h.stands, by rw [hstill.around]; exact h.ready, h.apart⟩

theorem Rest.still {rest : List Step} (h : Rest root t P owner node p rest places) (hstill : t.Still t') :
    Rest root t' P owner node p rest places where
  lt := hstill.size ▸ h.lt
  stands := h.stands
  steps := h.steps
  meets := by rw [hstill.around]; exact h.meets
  seats := h.seats
  awaits := h.awaits.still hstill
  below := h.below
  children := h.children
  alone := by rw [hstill.around]; exact h.alone

theorem Seated.still (h : Seated root t P duty D E) (hstill : t.Still t') : Seated root t' P duty D E := by
  cases h with
  | code lt stands ready covers =>
    exact .code (hstill.size ▸ lt) stands (by rwa [hstill.around]) covers
  | steps left covers => exact .steps (left.still hstill) covers
  | cls lt stands enters meets bodyAt ready site covers =>
    refine .cls (by rwa [hstill.size]) stands enters ?_ bodyAt ?_ site covers
    · rwa [hstill.around]
    · rwa [hstill.around]
  | members lt parts awaits covers =>
    exact .members (hstill.size ▸ lt) parts (awaits.still hstill) covers
  | member lt stands ready covers =>
    exact .member (hstill.size ▸ lt) stands (by rwa [hstill.around]) covers
  | own lt parts awaits covers => exact .own (hstill.size ▸ lt) parts (awaits.still hstill) covers
  | unit parts awaits covers => exact .unit parts (awaits.still hstill) covers

theorem Placed.around_stays (h : Placed root t P) (hstays : t.Stays t')
    (howner : ∀ o, outer = some o → o.cls < t.classes.size) : t'.Around outer = t.Around outer :=
  funext fun x => propext (around_congr (fun _ ho k hk =>
    congrArg (·.2) (hstays.settled k (h.lt_of_around howner ho hk))) x)

theorem Awaits.extends (h : Awaits root t P outer places) (haround : t'.Around outer = t.Around outer)
    (hext : P.Extends P' D E) (hD : ∀ e ∈ places, ∀ r, D r → ¬ e.2 <+: r)
    (hE : ∀ e ∈ places, ∀ r, E r → Apart e.2 r) : Awaits root t' P' outer places := by
  refine ⟨h.stands, fun e he => ?_, h.apart⟩
  rw [haround]
  exact (h.ready e he).extends hext (hD e he) (hE e he)

theorem Awaits.tail (h : Awaits root t P outer (e :: places)) : Awaits root t P outer places :=
  ⟨fun e he => h.stands e (List.mem_cons_of_mem _ he), fun e he => h.ready e (List.mem_cons_of_mem _ he),
    (List.pairwise_cons.mp h.apart).2⟩

theorem Awaits.head_apart (h : Awaits root t P outer (e :: places)) : ∀ e' ∈ places, Apart e.2 e'.2 :=
  fun _ he' => (List.pairwise_cons.mp h.apart).1 _ (List.mem_map_of_mem he')

theorem Awaits.next (h : Awaits root t P outer (e :: places)) (haround : t'.Around outer = t.Around outer)
    (hext : P.Extends P' (e.2 <+: ·) (e.2 <+: ·)) : Awaits root t' P' outer places :=
  h.tail.extends haround hext (fun e' he' _ hr => (h.head_apart e' he').not_both hr)
    fun e' he' _ hr => ((h.head_apart e' he').symm).extend List.prefix_rfl hr

theorem Awaits.of_forall₂ {parts : List Node} {ways : List Way}
    {R : Node → Way → Prop} (hat : root.at? p = some node) (hclear : P.Clear (t.Around outer) p)
    (hways : List.Forall₂ (fun part way => node.Stands part way ∧ R part way) parts ways)
    (hapart : ways.Pairwise Apart) :
    ∃ places : List (Node × Way), places.map (·.1) = parts ∧ Awaits root t P outer places ∧
      (∀ e ∈ places, p <+: e.2 ∧ p ≠ e.2) ∧ ∀ e ∈ places, ∃ way, e.2 = p ++ way ∧ R e.1 way := by
  obtain ⟨hlength, hzip⟩ := List.forall₂_iff_zip.mp hways
  have hall : ∀ e ∈ (parts.zip ways).map fun e => (e.1, p ++ e.2),
      ∃ way, e.2 = p ++ way ∧ node.Stands e.1 way ∧ R e.1 way := by
    intro e he
    obtain ⟨e₀, he₀, rfl⟩ := List.mem_map.mp he
    exact ⟨e₀.2, rfl, hzip he₀⟩
  have hbelow : ∀ e ∈ (parts.zip ways).map fun e => (e.1, p ++ e.2), p <+: e.2 ∧ p ≠ e.2 := by
    intro e he
    obtain ⟨way, heq, hstands, _⟩ := hall e he
    rw [heq]
    refine ⟨List.prefix_append p way, fun hsame => hstands.2 ?_⟩
    exact List.self_eq_append_right.mp hsame
  refine ⟨(parts.zip ways).map fun e => (e.1, p ++ e.2), ?_, ⟨?_, ?_, ?_⟩, hbelow, ?_⟩
  · rw [List.map_map]
    exact List.map_fst_zip (Nat.le_of_eq hlength)
  · intro e he
    obtain ⟨way, heq, hstands, _⟩ := hall e he
    rw [heq]
    exact Node.at?_of_append hat hstands.1
  · exact fun e he => hclear.down (hbelow e he).1 (hbelow e he).2
  · have hsnd : ((parts.zip ways).map fun e => (e.1, p ++ e.2)).map (·.2) = ways.map (p ++ ·) := by
      rw [List.map_map, ← List.map_snd_zip (Nat.le_of_eq hlength.symm), List.map_map]
      rw [List.map_snd_zip (Nat.le_of_eq hlength.symm)]
      rfl
    rw [hsnd, List.pairwise_map]
    exact hapart.imp fun h => h.below p
  · intro e he
    obtain ⟨way, heq, _, hR⟩ := hall e he
    exact ⟨way, heq, hR⟩

theorem Awaits.of_located {parts : List Node} (hat : root.at? p = some node)
    (hclear : P.Clear (t.Around outer) p) (h : node.Located parts) :
    ∃ places : List (Node × Way), places.map (·.1) = parts ∧ Awaits root t P outer places ∧
      ∀ e ∈ places, p <+: e.2 := by
  obtain ⟨ways, hways, hapart⟩ := h
  have htrue : List.Forall₂ (fun part way => node.Stands part way ∧ True) parts ways :=
    hways.imp fun _ _ hstands => ⟨hstands, trivial⟩
  obtain ⟨places, hparts, hawaits, hbelow, _⟩ := Awaits.of_forall₂ hat hclear htrue hapart
  exact ⟨places, hparts, hawaits, fun e he => (hbelow e he).1⟩

theorem Rest.next {rest : List Step} {places' : List (Node × Way)}
    (h : Rest root t P owner node p (step :: rest) places) (hplaces : places'.Sublist places)
    (hseats : places'.map (·.1) = Node.seats rest) (hsize : t.classes.size ≤ t'.classes.size)
    (haround : t'.Around (some owner) = t.Around (some owner)) (hext : P.Extends P' D E)
    (hE : ∀ r, E r → ¬ r <+: p) (hawaits : Awaits root t' P' (some owner) places') :
    Rest root t' P' owner node p rest places' where
  lt := Nat.lt_of_lt_of_le h.lt hsize
  stands := h.stands
  steps s hs := h.steps s (List.mem_cons_of_mem _ hs)
  meets := by
    rw [haround]
    exact h.meets.extends hext hE
  seats := hseats
  awaits := hawaits
  below e he := h.below e (hplaces.subset he)
  children hcreation e he := h.children hcreation e (hplaces.subset he)
  alone d hd := by
    have halone := (h.alone d (List.mem_cons_of_mem _ hd)).1
    rw [(List.cons.inj halone).2] at hd
    exact absurd hd List.not_mem_nil

end

end Table

/-! ## code without classes -/

def Step.Classless : Step → Prop
  | .visit part _ => part.holdsClass = false
  | .localClass _ | .anonymousClass _ _ => False
  | .enter _ _ | .declare _ _ | .caseConstant _ => True

def Duty.Classless : Duty → Prop
  | .code _ node _ => node.holdsClass = false
  | .steps _ _ _ rest => ∀ step ∈ rest, step.Classless
  | _ => False

theorem Node.classless_plan {n : Node} (h : n.holdsClass = false) : ∀ step ∈ n.plan, step.Classless := by
  have hself : n.declaresClass = false := by
    cases hdeclares : n.declaresClass with
    | false => rfl
    | true =>
      rw [holdsClass, List.any_eq_true.mpr ⟨n, mem_preorder_self n, hdeclares⟩] at h
      cases h
  intro step hstep
  have hof := n.of_plan step hstep
  cases step with
  | visit part place =>
    cases hpart : part.holdsClass with
    | false => exact hpart
    | true =>
      rw [holdsClass_of_mem (hof.mem_preorder (mem_preorder_self n)) hpart] at h
      cases h
  | localClass declaration =>
    obtain ⟨_, kind, hconstruct⟩ := hof
    rw [declaresClass, hconstruct] at hself
    cases hself
  | anonymousClass creation body =>
    obtain ⟨_, hconstruct, hbody, hkind⟩ := hof
    rw [declaresClass, hconstruct] at hself
    exact List.any_eq_false.mp hself body hbody (beq_iff_eq.mpr hkind)
  | enter | declare | caseConstant => trivial

theorem Indexes.still {duty : Duty} {t t' : Table} (h : Indexes duty t t') (hduty : duty.Classless) :
    t.Still t' := by
  induction h with
  | code _ ih => exact ih (Node.classless_plan hduty)
  | done => exact .refl _
  | quiet _ _ _ ih =>
    exact (Table.still_setScopes _ _).trans (ih fun s hs => hduty s (List.mem_cons_of_mem _ hs))
  | visit _ _ _ ihFirst ihOthers =>
    have hfirst := ihFirst (hduty _ List.mem_cons_self)
    have hothers := ihOthers fun s hs => hduty s (List.mem_cons_of_mem _ hs)
    exact ((Table.still_setScopes _ _).trans hfirst).trans hothers
  | localClass => exact (hduty _ List.mem_cons_self).elim
  | anonymousClass => exact (hduty _ List.mem_cons_self).elim
  | _ => exact hduty.elim

/-! ## the pass finds places -/

theorem Step.seat?_of_idle {source : SourceUnit} {here inner : ScopeId} {s : Scopes} {p : Progress}
    (h : step.perform source here inner s = .ok p)
    (hidle : p.action = .none ∨ ∃ name, p.action = .caseConstant name here) : step.seat? = none := by
  cases step with
  | visit part place =>
    obtain ⟨_, _, heq⟩ := Run.of_except_bind h
    cases heq
    rcases hidle with hidle | ⟨_, hidle⟩
    · cases hidle
    · cases hidle
  | anonymousClass creation body =>
    cases h
    rcases hidle with hidle | ⟨_, hidle⟩
    · cases hidle
    · cases hidle
  | enter | declare | caseConstant | localClass => rfl

namespace Indexes

variable {root : Node} {t t₁ t' : Table} {P : Placement} {D E : Way → Prop} {duty : Duty}
  {scope parent : ScopeId} {outer : Option CodeOwner}

open Table Placement

/-- what the theorem below says about a part of the pass -/
def Settles (root : Node) (duty : Duty) (t t' : Table) : Prop :=
  ∀ (P : Placement) (D E : Way → Prop), Placed root t P → Seated root t P duty D E →
    ∃ P', Placed root t' P' ∧ P.Extends P' D E

theorem Settles.still (h : Settles root duty t₁ t') (hstill : t.Still t₁) : Settles root duty t t' :=
  fun P D E hplaced hseated => h P D E (hplaced.still hstill) (hseated.still hstill)

theorem Settles.andStill (h : Settles root duty t t₁) (hstill : t₁.Still t') : Settles root duty t t' := by
  intro P D E hplaced hseated
  obtain ⟨P', hplaced', hext⟩ := h P D E hplaced hseated
  exact ⟨P', hplaced'.still hstill, hext⟩

theorem settles_code {owner : CodeOwner} {node : Node} (honce : ∀ n ∈ root.preorder, n.goesOnce = true)
    (ih : Settles root (.steps owner scope scope node.plan) t t') :
    Settles root (.code owner node scope) t t' := by
  intro P D E hplaced hseated
  cases hseated with
  | @code _ _ _ p _ _ lt stands ready covers =>
    obtain ⟨ways, hways, hapart⟩ := Node.located_seats (honce node (Node.mem_preorder_of_at? stands))
    obtain ⟨places, hseats, hawaits, hbelow, hchildren⟩ :=
      Awaits.of_forall₂ stands ready.clear hways hapart
    have left : Rest root t P owner node p node.plan places := by
      refine ⟨lt, stands, node.of_plan, ready.toMeets, hseats, hawaits, hbelow,
        fun hcreation e he => ?_, fun d hd => ?_⟩
      · obtain ⟨way, heq, hway⟩ := hchildren e he
        obtain ⟨i, rfl, hi⟩ := hway hcreation
        exact ⟨i, heq, hi⟩
      · obtain ⟨rfl, kind, hconstruct⟩ := node.of_plan _ hd
        exact ⟨by rw [Node.plan, hconstruct], ready⟩
    exact ih P D E hplaced (.steps left fun r hr => ⟨(covers r hr).1, fun _ => (covers r hr).2⟩)

section
variable {owner : CodeOwner} {here inner sc : ScopeId} {rest : List Step}

theorem settles_aside {inner' : ScopeId} (hseat : step.seat? = none) (hstill : t.Still t₁)
    (ih : Settles root (.steps owner here inner' rest) t₁ t') :
    Settles root (.steps owner here inner (step :: rest)) t t' := by
  intro P D E hplaced hseated
  cases hseated with
  | steps left covers =>
    have hseats := left.seats
    rw [Node.seats, List.filterMap_cons_none hseat] at hseats
    have left₁ := left.next (.refl _) hseats (Nat.le_of_eq hstill.size.symm) (hstill.around _)
      (Extends.refl P (fun _ => False) fun _ => False) (fun _ hr => hr.elim)
      (left.awaits.still hstill)
    exact ih P D E (hplaced.still hstill) (.steps left₁ covers)

/-- the seat of the first step, then those of the others; a class may have been declared at `p` itself -/
theorem settles_first {inner' : ScopeId} {node : Node} {p : Way} {e : Node × Way} {places : List (Node × Way)}
    (left : Rest root t P owner node p (step :: rest) (e :: places)) (hseats : places.map (·.1) = Node.seats rest)
    (covers : ∀ r, p <+: r → D r ∧ (p ≠ r → E r)) (hplaced : Placed root t P) (hstays : t.Stays t₁)
    (hfirst : ∃ P₁, Placed root t₁ P₁ ∧ P.Extends P₁ (fun r => r = p ∨ e.2 <+: r) (e.2 <+: ·))
    (ihOthers : Settles root (.steps owner here inner' rest) t₁ t') :
    ∃ P₂, Placed root t' P₂ ∧ P.Extends P₂ D E := by
  obtain ⟨P₁, hplaced₁, hext₁⟩ := hfirst
  have hbelow := left.below e List.mem_cons_self
  have haround := hplaced.around_stays hstays fun o ho => Option.some.inj ho ▸ left.lt
  have hnot : ∀ r, e.2 <+: r → ¬ r <+: p := fun r hr hle =>
    hbelow.2 (hbelow.1.eq_of_length_le (hr.trans hle).length_le)
  have hawaits : Awaits root t₁ P₁ (some owner) places := by
    refine left.awaits.tail.extends haround hext₁ (fun e' he' r hr => ?_) fun e' he' r hr => ?_
    · have hbelow' := left.below e' (List.mem_cons_of_mem _ he')
      rcases hr with rfl | hr
      · exact fun hle => hbelow'.2 (hbelow'.1.eq_of_length_le hle.length_le)
      · exact (left.awaits.head_apart e' he').not_both hr
    · exact (left.awaits.head_apart e' he').symm.extend List.prefix_rfl hr
  have left₁ := left.next (List.sublist_cons_self e places) hseats hstays.size haround hext₁ hnot hawaits
  obtain ⟨P₂, hplaced₂, hext₂⟩ := ihOthers P₁ D E hplaced₁ (.steps left₁ covers)
  refine ⟨P₂, hplaced₂, (hext₁.mono (fun r hr => ?_) fun r hr => ?_).trans hext₂⟩
  · rcases hr with rfl | hr
    · exact (covers _ List.prefix_rfl).1
    · exact (covers r (hbelow.1.trans hr)).1
  · exact (covers r (hbelow.1.trans hr)).2 fun heq => hnot r hr (heq ▸ List.prefix_rfl)

theorem settles_visit {part : Node} {place : Place} (first : Indexes (.code owner part sc) t t₁)
    (ihFirst : Settles root (.code owner part sc) t t₁)
    (ihOthers : Settles root (.steps owner here inner rest) t₁ t') :
    Settles root (.steps owner here inner (.visit part place :: rest)) t t' := by
  cases hholds : part.holdsClass with
  | false =>
    have hseat : (Step.visit part place).seat? = none := by
      rw [Step.seat?, hholds, if_neg Bool.false_ne_true]
    exact settles_aside hseat (first.still hholds) ihOthers
  | true =>
    intro P D E hplaced hseated
    cases hseated with
    | @steps _ node _ _ p _ places _ _ left covers =>
      have hseats := left.seats
      rw [Node.seats_visit_of_holds hholds] at hseats
      obtain ⟨e, places', rfl, rfl, hseats'⟩ := List.map_eq_cons_iff.mp hseats
      have hfirst := ihFirst P (fun r => r = p ∨ e.2 <+: r) (e.2 <+: ·) hplaced
        (.code left.lt (left.awaits.stands e List.mem_cons_self)
          (left.awaits.ready e List.mem_cons_self) fun r hr => ⟨.inr hr, hr⟩)
      exact settles_first left hseats' covers hplaced first.stays hfirst ihOthers

theorem settles_localClass {declaration : Node} {c : ClassId}
    (first : Indexes (.cls (some owner) declaration (declaration.child? "body") parent) t t₁)
    (ihFirst : Settles root (.cls (some owner) declaration (declaration.child? "body") parent) t t₁)
    (ihOthers : Settles root (.steps owner here inner rest) (t₁.nameLocal here c) t') :
    Settles root (.steps owner here inner (.localClass declaration :: rest)) t t' := by
  intro P D E hplaced hseated
  cases hseated with
  | @steps _ node _ _ p _ places _ _ left covers =>
    obtain ⟨halone, hready⟩ := left.alone declaration List.mem_cons_self
    obtain ⟨rfl, kind, hconstruct⟩ := left.steps _ List.mem_cons_self
    cases (List.cons.inj halone).2
    have hplaces : places = [] := List.map_eq_nil_iff.mp left.seats
    have hstill := still_nameLocal t₁ here c
    have haround := (hstill.around (some owner)).trans
      (hplaced.around_stays first.stays fun o ho => Option.some.inj ho ▸ left.lt)
    have henters : declaration.Enters (declaration.child? "body") := by
      rw [Node.Enters, hconstruct, if_neg (by simp)]
    obtain ⟨spot, hspot⟩ := exists_bodyAt p fun b hb => Node.mem_of_child? hb
    obtain ⟨P₁, hplaced₁, hext₁⟩ := ihFirst P (p <+: ·) (fun r => p <+: r ∧ p ≠ r) hplaced
      (.cls (fun o ho => Option.some.inj ho ▸ left.lt) left.stands henters left.meets hspot
        (fun b hb => hready.clear.down (hspot.below hb).1 (hspot.below hb).2) List.prefix_rfl
        fun b hb r hr => ⟨(hspot.below hb).1.trans hr, (hspot.below hb).1.trans hr, fun heq =>
          (hspot.below hb).2 ((hspot.below hb).1.eq_of_length_le (heq ▸ hr).length_le)⟩)
    have left₁ : Rest root (t₁.nameLocal here c) P₁ owner declaration p [] [] :=
      left.next (List.nil_sublist _) rfl (hstill.size ▸ first.stays.size) haround hext₁
        (fun r hr hle => hr.2 (hr.1.eq_of_length_le hle.length_le))
        (.nil ..)
    obtain ⟨P₂, hplaced₂, hext₂⟩ := ihOthers P₁ D E (hplaced₁.still hstill) (.steps left₁ covers)
    exact ⟨P₂, hplaced₂, (hext₁.mono (fun r hr => (covers r hr).1)
      fun r hr => (covers r hr.1).2 hr.2).trans hext₂⟩

theorem settles_anonymousClass {creation body : Node}
    (first : Indexes (.cls (some owner) creation (some body) parent) t t₁)
    (ihFirst : Settles root (.cls (some owner) creation (some body) parent) t t₁)
    (ihOthers : Settles root (.steps owner here inner rest) t₁ t') :
    Settles root (.steps owner here inner (.anonymousClass creation body :: rest)) t t' := by
  intro P D E hplaced hseated
  cases hseated with
  | @steps _ node _ _ p _ places _ _ left covers =>
    obtain ⟨rfl, hcreation, hbody, hkind⟩ := left.steps _ List.mem_cons_self
    obtain ⟨e, places', rfl, rfl, hseats⟩ := List.map_eq_cons_iff.mp left.seats
    obtain ⟨i, hway, hi⟩ := left.children hcreation e List.mem_cons_self
    have henters : creation.Enters (some e.1) := by
      rw [Node.Enters, if_pos hcreation]
      exact ⟨e.1, hbody, hkind, rfl⟩
    have hspot : BodyAt creation p (some e.1) (some e.2) := .inr ⟨e.1, i, rfl, hi, by rw [hway]⟩
    have hfirst := ihFirst P (fun r => r = p ∨ e.2 <+: r) (e.2 <+: ·) hplaced
      (.cls (fun o ho => Option.some.inj ho ▸ left.lt) left.stands henters left.meets hspot
        (fun b hb => Option.some.inj hb ▸ left.awaits.ready e List.mem_cons_self) (.inl rfl)
        fun b hb r hr => ⟨.inr (Option.some.inj hb ▸ hr), Option.some.inj hb ▸ hr⟩)
    exact settles_first left hseats covers hplaced first.stays hfirst ihOthers

end

theorem settles_cls {node : Node} {body : Option Node} (hreg : Registers outer node body parent t t₁)
    (ih : Settles root (.members t.classes.size ((body.map memberNodes).getD [])) t₁ t') :
    Settles root (.cls outer node body parent) t t' := by
  intro P D E hplaced hseated
  cases hseated with
  | @cls _ _ _ _ p spot _ _ lt stands enters meets bodyAt ready site covers =>
    have hplaced₁ := hplaced.registers hreg lt stands enters meets bodyAt ready
    have hlt : t.classes.size < t₁.classes.size := hreg.size ▸ Nat.lt_succ_self _
    have hext₁ := (extends_enter (hplaced.unsited _ (Nat.le_refl _)).1
      (hplaced.unsited _ (Nat.le_refl _)).2 p spot).mono (fun r hr => hr ▸ site)
      fun r hr => (covers r hr r List.prefix_rfl).2
    have hmembers : ∃ places : List (Node × Way),
        places.map (·.1) = (body.map memberNodes).getD [] ∧
        Awaits root t₁ (P.enter t.classes.size p spot) (some ⟨t.classes.size, none⟩) places ∧
        ∀ e ∈ places, ∀ r, e.2 <+: r → D r ∧ E r := by
      rcases bodyAt with ⟨rfl, rfl⟩ | ⟨b, i, rfl, hi, rfl⟩
      · exact ⟨[], rfl, .nil .., List.forall_mem_nil _⟩
      · have hbody : BodyAt node p (some b) (some (p ++ [i])) := .inr ⟨b, i, rfl, hi, rfl⟩
        obtain ⟨places, hparts, hawaits, hbelow⟩ := Awaits.of_located (Node.at?_child stands hi)
          (hplaced.clear_members hreg lt hbody (ready _ rfl)) b.located_members
        exact ⟨places, hparts, hawaits, fun e he r hr => covers _ rfl r ((hbelow e he).trans hr)⟩
    obtain ⟨places, hparts, hawaits, hcovers⟩ := hmembers
    obtain ⟨P₂, hplaced₂, hext₂⟩ := ih _ D E hplaced₁ (.members hlt hparts hawaits hcovers)
    exact ⟨P₂, hplaced₂, hext₁.trans hext₂⟩

theorem settles_next {e : Node × Way} {places : List (Node × Way)}
    (hplaced : Placed root t P) (howner : ∀ o, outer = some o → o.cls < t.classes.size)
    (hawaits : Awaits root t P outer (e :: places))
    (covers : ∀ e' ∈ e :: places, ∀ r, e'.2 <+: r → D r ∧ E r) (hstays : t.Stays t₁)
    (hfirst : root.at? e.2 = some e.1 → P.Ready (t.Around outer) e.2 →
      ∃ P₁, Placed root t₁ P₁ ∧ P.Extends P₁ (e.2 <+: ·) (e.2 <+: ·))
    (hothers : ∀ P₁, Placed root t₁ P₁ → Awaits root t₁ P₁ outer places →
      (∀ e' ∈ places, ∀ r, e'.2 <+: r → D r ∧ E r) → ∃ P₂, Placed root t' P₂ ∧ P₁.Extends P₂ D E) :
    ∃ P₂, Placed root t' P₂ ∧ P.Extends P₂ D E := by
  obtain ⟨P₁, hplaced₁, hext₁⟩ := hfirst (hawaits.stands e List.mem_cons_self) (hawaits.ready e List.mem_cons_self)
  obtain ⟨P₂, hplaced₂, hext₂⟩ := hothers P₁ hplaced₁
    (hawaits.next (hplaced.around_stays hstays howner) hext₁)
    fun e' he' => covers e' (List.mem_cons_of_mem _ he')
  have hcovers := covers e List.mem_cons_self
  exact ⟨P₂, hplaced₂,
    (hext₁.mono (fun r hr => (hcovers r hr).1) fun r hr => (hcovers r hr).2).trans hext₂⟩

section
variable {c : ClassId} {member : Node} {rest : List Node}

theorem settles_members (first : Indexes (.member c member) t t₁)
    (ihFirst : Settles root (.member c member) t t₁) (ihOthers : Settles root (.members c rest) t₁ t') :
    Settles root (.members c (member :: rest)) t t' := by
  intro P D E hplaced hseated
  cases hseated with
  | members lt parts awaits covers =>
    obtain ⟨e, places, rfl, rfl, hparts⟩ := List.map_eq_cons_iff.mp parts
    refine settles_next hplaced (fun o ho => Option.some.inj ho ▸ lt) awaits covers first.stays
      (fun stands ready => ihFirst P _ _ hplaced (.member lt stands ready fun r hr => ⟨hr, hr⟩))
      fun P₁ hplaced₁ hawaits₁ hcovers => ?_
    exact ihOthers P₁ D E hplaced₁ (.members (Nat.lt_of_lt_of_le lt first.stays.size) hparts hawaits₁ hcovers)

theorem settles_own {code : Node} (first : Indexes (.code ⟨c, none⟩ code scope) t t₁)
    (ihFirst : Settles root (.code ⟨c, none⟩ code scope) t t₁) (ihOthers : Settles root (.own c rest) t₁ t') :
    Settles root (.own c (code :: rest)) t t' := by
  intro P D E hplaced hseated
  cases hseated with
  | own lt parts awaits covers =>
    obtain ⟨e, places, rfl, rfl, hparts⟩ := List.map_eq_cons_iff.mp parts
    refine settles_next hplaced (fun o ho => Option.some.inj ho ▸ lt) awaits covers first.stays
      (fun stands ready => ihFirst P _ _ hplaced (.code lt stands ready fun r hr => ⟨hr, hr⟩))
      fun P₁ hplaced₁ hawaits₁ hcovers => ?_
    exact ihOthers P₁ D E hplaced₁ (.own (Nat.lt_of_lt_of_le lt first.stays.size) hparts hawaits₁ hcovers)

theorem Settles.at_ready {body : Option Node} {q : Way}
    (h : Settles root (.cls outer member body parent) t t') (hplaced : Placed root t P)
    (lt : ∀ o, outer = some o → o.cls < t.classes.size) (stands : root.at? q = some member)
    (enters : member.Enters body) (ready : P.Ready (t.Around outer) q) (covers : ∀ r, q <+: r → D r ∧ E r) :
    ∃ P', Placed root t' P' ∧ P.Extends P' D E := by
  have hmem : ∀ b, body = some b → b ∈ member.children := fun b hb =>
    Node.mem_of_enters (hb ▸ enters)
  obtain ⟨spot, hspot⟩ := exists_bodyAt q hmem
  refine h P D E hplaced (.cls lt stands enters ready.toMeets hspot (fun b hb => ?_) ?_ fun b hb r hr => ?_)
  · exact ready.clear.down (hspot.below hb).1 (hspot.below hb).2
  · exact (covers q List.prefix_rfl).1
  · exact covers r ((hspot.below hb).1.trans hr)

theorem settles_unit (first : Indexes (.cls none member (member.child? "body") Scopes.rootId) t t₁)
    (enters : member.Enters (member.child? "body"))
    (ihFirst : Settles root (.cls none member (member.child? "body") Scopes.rootId) t t₁)
    (ihOthers : Settles root (.unit rest) t₁ t') : Settles root (.unit (member :: rest)) t t' := by
  intro P D E hplaced hseated
  cases hseated with
  | unit parts awaits covers =>
    obtain ⟨e, places, rfl, rfl, hparts⟩ := List.map_eq_cons_iff.mp parts
    refine settles_next hplaced (fun o ho => by cases ho) awaits covers first.stays
      (fun stands ready => ihFirst.at_ready hplaced (fun o ho => by cases ho) stands enters ready fun r hr => ⟨hr, hr⟩)
      fun P₁ hplaced₁ hawaits₁ hcovers => ?_
    exact ihOthers P₁ D E hplaced₁ (.unit hparts hawaits₁ hcovers)

theorem settles_codes {codes : List Node} (hcodes : member.Located codes)
    (ih : Settles root (.own c codes) t t') : Settles root (.member c member) t t' := by
  intro P D E hplaced hseated
  cases hseated with
  | member lt stands ready covers =>
    obtain ⟨places, hparts, hawaits, hbelow⟩ := Awaits.of_located stands ready.clear hcodes
    exact ih P D E hplaced (.own lt hparts hawaits fun e he r hr => covers r ((hbelow e he).trans hr))

theorem settles_method {body : Node} {id : MethodId} (hbody : member.child? "body" = some body)
    (hadds : Adds c member id t t₁) (ih : Settles root (.code ⟨c, some id⟩ body scope) t₁ t') :
    Settles root (.member c member) t t' := by
  intro P D E hplaced hseated
  cases hseated with
  | @member _ _ q _ _ lt stands ready covers =>
    obtain ⟨i, hi⟩ := List.getElem?_of_mem (Node.mem_of_child? hbody)
    have hext₁ : P.Extends (P.addCode id (q ++ [i])) D E :=
      (extends_addCode (hplaced.uncoded id hadds.fresh) (q ++ [i])).mono
        (fun r hr => hr.elim) fun r hr => (covers r (hr ▸ List.prefix_append q [i])).2
    obtain ⟨P₂, hplaced₂, hext₂⟩ := ih _ D E (hplaced.adds hadds stands hbody hi ready)
      (.code (hadds.size ▸ lt) (Node.at?_child stands hi) (hplaced.ready_code hadds ready i)
        fun r hr => covers r ((List.prefix_append q [i]).trans hr))
    exact ⟨P₂, hplaced₂, hext₁.trans hext₂⟩

theorem settles_constantBody {body : Node} (hconstant : MemberKind.ofKind member.kind = .constant)
    (hbody : member.child? "body" = some body)
    (codes : Indexes (.own c (member.child? "arguments").toList) t t₁)
    (ihCodes : Settles root (.own c (member.child? "arguments").toList) t t₁)
    (ihNested : Settles root (.cls (some ⟨c, none⟩) member (some body) parent) t₁ t') :
    Settles root (.member c member) t t' := by
  intro P D E hplaced hseated
  cases hseated with
  | @member _ _ q _ _ lt stands ready covers =>
    obtain ⟨i, hi⟩ := List.getElem?_of_mem (Node.mem_of_child? hbody)
    have henters : member.Enters (some body) := by
      rw [Node.Enters, if_neg (construct_of_constant hconstant), hbody]
    -- the arguments stand in another child than the body
    let Aside (r : Way) : Prop := q <+: r ∧ q ≠ r ∧ Apart (q ++ [i]) r
    have hplaces : ∃ places : List (Node × Way),
        places.map (·.1) = (member.child? "arguments").toList ∧
        Awaits root t P (some ⟨c, none⟩) places ∧
        ∀ e ∈ places, ∀ r, e.2 <+: r → Aside r ∧ Aside r := by
      cases harguments : member.child? "arguments" with
      | none =>
        exact ⟨[], rfl, .nil .., List.forall_mem_nil _⟩
      | some arguments =>
        obtain ⟨j, hj⟩ := List.getElem?_of_mem (Node.mem_of_child? harguments)
        have hne : i ≠ j := by
          rintro rfl
          have hsame := Option.some.inj (hi.symm.trans hj)
          have hfield := Node.field_of_child? hbody
          rw [hsame, Node.field_of_child? harguments] at hfield
          exact absurd hfield (by decide)
        have hbelow : q ≠ q ++ [j] := by simp
        refine ⟨[(arguments, q ++ [j])], rfl, ⟨?_, ?_, List.pairwise_singleton _ _⟩, ?_⟩
        · simpa using Node.at?_child stands hj
        · simpa using ready.clear.down (List.prefix_append q [j]) hbelow
        · intro e he r hr
          rw [List.mem_singleton.mp he] at hr
          have haside : Aside r := ⟨(List.prefix_append q [j]).trans hr,
            fun heq => not_concat_le q j (heq ▸ hr),
            ((apart_of_ne hne).below q).extend List.prefix_rfl hr⟩
          exact ⟨haside, haside⟩
    obtain ⟨places, hparts, hawaits, hcovers⟩ := hplaces
    obtain ⟨P₁, hplaced₁, hext₁⟩ := ihCodes P Aside Aside hplaced (.own lt hparts hawaits hcovers)
    have howner : ∀ o, some (⟨c, none⟩ : CodeOwner) = some o → o.cls < t.classes.size :=
      fun o ho => Option.some.inj ho ▸ lt
    have haround := hplaced.around_stays codes.stays howner
    have hspot : BodyAt member q (some body) (some (q ++ [i])) := .inr ⟨body, i, rfl, hi, rfl⟩
    have hready : P₁.Ready (t₁.Around (some ⟨c, none⟩)) (q ++ [i]) := by
      rw [haround]
      exact (ready.clear.down (hspot.below rfl).1 (hspot.below rfl).2).extends hext₁
        (fun r hr => hr.2.2.1) fun r hr => hr.2.2
    obtain ⟨P₂, hplaced₂, hext₂⟩ := ihNested P₁ D E hplaced₁ (.cls
      (fun o ho => Option.some.inj ho ▸ Nat.lt_of_lt_of_le lt codes.stays.size) stands henters
      (by rw [haround]; exact ready.toMeets.extends hext₁ fun r hr hle =>
        hr.2.1 (hr.1.eq_of_length_le hle.length_le))
      hspot (fun b hb => Option.some.inj hb ▸ hready) (covers q List.prefix_rfl).1
      fun b hb r hr => covers r ((hspot.below hb).1.trans hr))
    exact ⟨P₂, hplaced₂, (hext₁.mono (fun r hr => (covers r hr.1).1)
      fun r hr => (covers r hr.1).2).trans hext₂⟩

theorem settles_idle (hstill : t.Still t') : Settles root duty t t' :=
  fun P D E hplaced _ => ⟨P, hplaced.still hstill, .refl P D E⟩

end

/-- **the pass finds a place for each class and each method it adds** -/
theorem placed (honce : ∀ n ∈ root.preorder, n.goesOnce = true) (h : Indexes duty t t') :
    Settles root duty t t' := by
  induction h with
  | code _ ih => exact settles_code honce ih
  | done => exact settles_idle (.refl _)
  | quiet perform idle _ ih =>
    exact settles_aside (Step.seat?_of_idle perform idle) (still_setScopes _ _) ih
  | visit _ first _ ihFirst ihOthers =>
    exact (settles_visit first ihFirst ihOthers).still (still_setScopes _ _)
  | localClass first _ _ ihFirst ihOthers =>
    exact (settles_localClass first ihFirst ihOthers).still (still_setScopes _ _)
  | anonymousClass first _ _ ihFirst ihOthers =>
    exact (settles_anonymousClass first ihFirst ihOthers).still (still_setScopes _ _)
  | cls registers _ ih => exact settles_cls registers ih
  | noMembers => exact settles_idle (.refl _)
  | members first _ ihFirst ihOthers => exact settles_members first ihFirst ihOthers
  | idle _ amends => exact settles_idle amends.still
  | @fields _ member _ _ _ _ ih =>
    refine settles_codes ?_ ih
    exact (member.located_filter _).flatMap fun d _ => (d.located_child "value").spread
  | method _ hasBody adds _ _ _ ih => exact settles_method hasBody adds (ih.still (still_setScopes _ _))
  | @constant _ member _ _ _ _ _ ih => exact settles_codes (member.located_child "arguments") ih
  | constantBody kind hasBody codes _ _ ihCodes ihNested =>
    exact settles_constantBody kind hasBody codes ihCodes ihNested
  | block _ _ ih =>
    intro P D E hplaced hseated
    cases hseated with
    | member lt stands ready covers => exact ih P D E hplaced (.code lt stands ready covers)
  | nested kind _ amends ih =>
    intro P D E hplaced hseated
    cases hseated with
    | member lt stands ready covers =>
      exact (ih.andStill amends.still).at_ready hplaced (fun o ho => Option.some.inj ho ▸ lt) stands
        (enters_of_ofKind? (ofKind?_of_nested kind)) ready covers
  | noCode amends => exact settles_idle amends.still
  | own amends first _ ihFirst ihOthers =>
    exact (settles_own first ihFirst ihOthers).still (amends.still.trans (still_setScopes _ _))
  | finished => exact settles_idle (.refl _)
  | aside amends _ ih =>
    intro P D E hplaced hseated
    cases hseated with
    | unit parts awaits covers =>
      obtain ⟨e, places, rfl, rfl, hparts⟩ := List.map_eq_cons_iff.mp parts
      exact ih P D E (hplaced.still amends.still) (.unit hparts (awaits.tail.still amends.still)
        fun e' he' => covers e' (List.mem_cons_of_mem _ he'))
  | topLevel kind first amends _ ihFirst ihOthers =>
    exact settles_unit first (enters_of_ofKind? kind) ihFirst (ihOthers.still amends.still)

end Indexes

namespace Table

variable {source : SourceUnit} {t : Table} {P : Placement}

/-! ## the table of a unit -/

theorem placed_of_ofSource (h : ofSource source = .ok t)
    (honce : ∀ n ∈ source.root.preorder, n.goesOnce = true) : ∃ P, Placed source.root t P := by
  obtain ⟨t₀, hindexes, hamends⟩ := indexes_of_ofSource h
  let nowhere : Placement := ⟨fun _ => none, fun _ => none⟩
  have hstart : Placed source.root { source } nowhere := by
    refine ⟨⟨fun c hc => absurd hc (Nat.not_lt_zero c), fun m n hm => ?_⟩,
      fun c hc => absurd hc (Nat.not_lt_zero c), fun _ _ => ⟨rfl, rfl⟩, fun _ _ => rfl,
      fun c p hp => ?_⟩
    · cases hm
    · cases hp
  have hclear : nowhere.Clear (Table.Around { source } none) [] := by
    refine ⟨fun _ _ hr => ?_, fun _ hx => hx.elim, fun _ _ hr => ?_, fun _ _ hr => ?_⟩
    · cases hr
    · cases hr
    · cases hr
  have hroot : source.root.at? [] = some source.root := rfl
  obtain ⟨places, hparts, hawaits, _⟩ := Awaits.of_located hroot hclear
    (Node.located_of_sublist List.filter_sublist)
  obtain ⟨P, hplaced, _⟩ := hindexes.placed honce nowhere (fun _ => True) (fun _ => True) hstart
    (.unit hparts hawaits fun _ _ _ _ => ⟨trivial, trivial⟩)
  exact ⟨P, hplaced.still hamends.still⟩

/-- the body of the class around a class is the nearest one -/
theorem Placed.outer_nearest (h : Placed source.root t P) (hordered : t.Preordered)
    {c o : ClassId} {p : Way} (hp : P.site c = some p) (ho : (t.decl c).outer = some o) :
    ∃ b, P.spot (.body o) = some b ∧ b <+: p ∧ b ≠ p ∧
      ∀ k r, P.spot (.body k) = some r → r <+: p → k = o ∨ (r <+: b ∧ r ≠ b) := by
  have hmeets := h.nested c p hp
  have hc := h.lt hp
  have houters : (t.decl c).outers = o :: (t.decl o).outers := by
    rw [hordered.outers c hc, ho]
    rfl
  have hmem : t.Holds c (.body o) := by
    rw [Holds, houters]
    exact List.mem_cons_self
  obtain ⟨b, hb⟩ := hmeets.known _ hmem
  refine ⟨b, hb, (hmeets.around _ b hb).mpr hmem, fun heq => hmeets.free o (heq ▸ hb), ?_⟩
  intro k r hr hle
  have hk : k ∈ (t.decl c).outers := (hmeets.around _ r hr).mp hle
  rw [houters] at hk
  refine (List.mem_cons.mp hk).imp_right fun hk => ?_
  -- the class around `c` stands in the body of `k`, and its own body below that
  obtain ⟨q, n, hq, _, _, _, hbody⟩ := h.sited o (Nat.lt_trans (h.outers_lt c hc o hmem) hc)
  have hrq : r <+: q := ((h.nested o q hq).around _ r hr).mpr hk
  have hqb := hbody.below hb
  exact ⟨hrq.trans hqb.1, fun heq => hqb.2 (hqb.1.eq_of_length_le (heq ▸ hrq).length_le)⟩

/-- **A class is declared within a method just if it stands in the code of that method, and the class around it is the one with the
nearest body.** -/
theorem declaredWithin_iff_contained (h : ofSource source = .ok t)
    (honce : ∀ n ∈ source.root.preorder, n.goesOnce = true) :
    ∃ P : Placement, Tells source.root t P ∧ ∀ c < t.classes.size, ∃ p, P.site c = some p ∧
      (∀ m n, t.coded m = some n →
        ∃ q, P.spot (.code m) = some q ∧ (t.declaredWithin c m = true ↔ q <+: p)) ∧
      (∀ o, (t.decl c).outer = some o → ∃ b, P.spot (.body o) = some b ∧ b <+: p ∧ b ≠ p ∧
        ∀ k r, P.spot (.body k) = some r → r <+: p → k = o ∨ (r <+: b ∧ r ≠ b)) ∧
      ((t.decl c).outer = none → ∀ k r, P.spot (.body k) = some r → ¬ r <+: p) := by
  obtain ⟨P, hplaced⟩ := placed_of_ofSource h honce
  refine ⟨P, hplaced.toTells, fun c hc => ?_⟩
  obtain ⟨p, _, hp, _⟩ := hplaced.sited c hc
  refine ⟨p, hp, fun m n hm => ?_, fun o ho => ?_, fun hnone k r hr hle => ?_⟩
  · obtain ⟨q, i, _, _, _, _, _, hcode, _⟩ := hplaced.coded m n hm
    exact ⟨q ++ [i], hcode, ((hplaced.nested c p hp).around _ _ hcode).symm⟩
  · exact hplaced.outer_nearest (preordered_of_ofSource h) hp ho
  · have hk : k ∈ (t.decl c).outers := ((hplaced.nested c p hp).around _ r hr).mp hle
    rw [(preordered_of_ofSource h).outers c hc, hnone] at hk
    exact List.not_mem_nil hk

/-- `class A { void f() { new B() { void g() { class L { } } }; } void h() { } }` -/
def nestedLocal : SourceUnit :=
  .ofText ("class A \x7b void f() \x7b new B() \x7b void g() \x7b class L \x7b \x7d \x7d \x7d; \x7d " ++
    "void h() \x7b \x7d \x7d") ⟨
    ⟨"program", true, false, 0, 75, none, [
      ⟨"class_declaration", true, false, 0, 75, none, [
        ⟨"class", false, false, 0, 5, none, []⟩, ⟨"identifier", true, false, 6, 7, some "name", []⟩,
        ⟨"class_body", true, false, 8, 75, some "body", [
          ⟨"method_declaration", true, false, 10, 60, none, [
            ⟨"void_type", true, false, 10, 14, some "type", []⟩, ⟨"identifier", true, false, 15, 16, some "name", []⟩,
            ⟨"formal_parameters", true, false, 16, 18, some "parameters", []⟩,
            ⟨"block", true, false, 19, 60, some "body", [
              ⟨"expression_statement", true, false, 21, 58, none, [
                ⟨"object_creation_expression", true, false, 21, 57, none, [
                  ⟨"new", false, false, 21, 24, none, []⟩, ⟨"type_identifier", true, false, 25, 26, some "type", []⟩,
                  ⟨"argument_list", true, false, 26, 28, some "arguments", []⟩,
                  ⟨"class_body", true, false, 29, 57, none, [
                    ⟨"method_declaration", true, false, 31, 55, none, [
                      ⟨"void_type", true, false, 31, 35, some "type", []⟩,
                      ⟨"identifier", true, false, 36, 37, some "name", []⟩,
                      ⟨"formal_parameters", true, false, 37, 39, some "parameters", []⟩,
                      ⟨"block", true, false, 40, 55, some "body", [
                        ⟨"class_declaration", true, false, 42, 53, none, [
                          ⟨"class", false, false, 42, 47, none, []⟩,
                          ⟨"identifier", true, false, 48, 49, some "name", []⟩,
                          ⟨"class_body", true, false, 50, 53, some "body", []⟩]⟩]⟩]⟩]⟩]⟩]⟩]⟩]⟩,
          ⟨"method_declaration", true, false, 61, 73, none, [
            ⟨"void_type", true, false, 61, 65, some "type", []⟩, ⟨"identifier", true, false, 66, 67, some "name", []⟩,
            ⟨"formal_parameters", true, false, 67, 69, some "parameters", []⟩,
            ⟨"block", true, false, 70, 73, some "body", []⟩]⟩]⟩]⟩]⟩, none⟩

/-- the local class stands in the anonymous class, and both in the code of `f` -/
theorem nestedLocal_contained :
    ∃ t, ofSource nestedLocal = .ok t ∧ (∀ n ∈ nestedLocal.root.preorder, n.goesOnce = true) ∧
      ∃ P, Tells nestedLocal.root t P ∧ ∃ p q b, P.site 2 = some p ∧
        P.spot (.code ⟨0, 0⟩) = some q ∧ q <+: p ∧ P.spot (.body 1) = some b ∧ b <+: p ∧
        ∃ away, P.spot (.code ⟨0, 1⟩) = some away ∧ ¬ away <+: p := by
  have hcheck : (ofSource nestedLocal).toOption.any (fun t => t.classes.size == 3 &&
      (t.coded ⟨0, 0⟩).isSome && (t.coded ⟨0, 1⟩).isSome && (t.decl 2).outer == some 1 &&
      t.declaredWithin 2 ⟨0, 0⟩ && !t.declaredWithin 2 ⟨0, 1⟩) = true := by decide +kernel
  have honce : ∀ n ∈ nestedLocal.root.preorder, n.goesOnce = true := by decide +kernel
  obtain ⟨t, built, hcheck⟩ := Run.of_toOption_any hcheck
  simp only [Bool.and_eq_true, beq_iff_eq, Bool.not_eq_true_eq_eq_false] at hcheck
  obtain ⟨⟨⟨⟨⟨hsize, hf⟩, hh⟩, houter⟩, hwithin⟩, hout⟩ := hcheck
  obtain ⟨f, hf⟩ := Option.isSome_iff_exists.mp hf
  obtain ⟨h, hh⟩ := Option.isSome_iff_exists.mp hh
  obtain ⟨P, htells, hall⟩ := declaredWithin_iff_contained built honce
  obtain ⟨p, hp, hcodes, hbodies, _⟩ := hall 2 (hsize ▸ by decide)
  obtain ⟨q, hq, hiff⟩ := hcodes ⟨0, 0⟩ f hf
  obtain ⟨away, haway, hiff'⟩ := hcodes ⟨0, 1⟩ h hh
  obtain ⟨b, hb, hle, _⟩ := hbodies 1 houter
  refine ⟨t, built, honce, P, htells, p, q, b, hp, hq, hiff.mp hwithin, hb, hle, away, haway, ?_⟩
  rw [← hiff', hout]
  exact Bool.false_ne_true

/-- `class A { void f() { try (new B() { new C() { } }); } }`, with a list of resources that is a clause as well -/
def sharedClause : SourceUnit :=
  .ofText "class A \x7b void f() \x7b try (new B() \x7b new C() \x7b \x7d \x7d); \x7d \x7d" ⟨
    ⟨"program", true, false, 0, 55, none, [
      ⟨"class_declaration", true, false, 0, 55, none, [
        ⟨"class", false, false, 0, 5, none, []⟩, ⟨"identifier", true, false, 6, 7, some "name", []⟩,
        ⟨"class_body", true, false, 8, 55, some "body", [
          ⟨"method_declaration", true, false, 10, 53, none, [
            ⟨"void_type", true, false, 10, 14, some "type", []⟩, ⟨"identifier", true, false, 15, 16, some "name", []⟩,
            ⟨"formal_parameters", true, false, 16, 18, some "parameters", []⟩,
            ⟨"block", true, false, 19, 53, some "body", [
              ⟨"try_with_resources_statement", true, false, 21, 51, none, [
                ⟨"catch_clause", true, false, 25, 50, some "resources", [
                  ⟨"object_creation_expression", true, false, 26, 49, some "body", [
                    ⟨"type_identifier", true, false, 30, 31, some "type", []⟩,
                    ⟨"argument_list", true, false, 31, 33, some "arguments", []⟩,
                    ⟨"class_body", true, false, 34, 49, none, [
                      ⟨"object_creation_expression", true, false, 36, 47, none, [
                        ⟨"type_identifier", true, false, 40, 41, some "type", []⟩,
                        ⟨"argument_list", true, false, 41, 43, some "arguments", []⟩,
                        ⟨"class_body", true, false, 44, 47, none, []⟩]⟩]⟩]⟩]⟩]⟩]⟩]⟩]⟩]⟩]⟩, none⟩

/-- no node is entered twice, and still the class around `C` is `A`, while the nearest body that contains it is that of `B` -/
theorem sharedClause_outer_not_nearest :
    ∃ t, ofSource sharedClause = .ok t ∧ (t.declared.map (·.1)).Nodup ∧
      ∃ (bodyOfA bodyOfB way : Way) (node : Node), (t.decl 0).body = sharedClause.root.at? bodyOfA ∧
        (t.decl 2).body = sharedClause.root.at? bodyOfB ∧ sharedClause.root.at? way = some node ∧
        (node.key, 1) ∈ t.declared ∧ bodyOfA <+: bodyOfB ∧ bodyOfA ≠ bodyOfB ∧
        bodyOfB <+: way ∧ bodyOfB ≠ way ∧ (t.decl 1).outer = some 0 := by
  have hcheck : (ofSource sharedClause).toOption.any (fun t => decide ((t.declared.map (·.1)).Nodup ∧
      (t.decl 0).body = sharedClause.root.at? [0, 2] ∧
      (t.decl 2).body = sharedClause.root.at? [0, 2, 0, 3, 0, 0, 0, 2] ∧
      ((sharedClause.root.at? [0, 2, 0, 3, 0, 0, 0, 2, 0]).any fun node =>
        decide ((node.key, 1) ∈ t.declared)) = true ∧
      (t.decl 1).outer = some 0)) = true := by decide +kernel
  obtain ⟨t, built, hcheck⟩ := Run.of_toOption_any hcheck
  obtain ⟨hnodup, hA, hB, hnode, houter⟩ := of_decide_eq_true hcheck
  exact ⟨t, built, hnodup, _, _, [0, 2, 0, 3, 0, 0, 0, 2, 0], _, hA, hB, rfl,
    of_decide_eq_true hnode, by decide, by decide, by decide, by decide, houter⟩

end Table

end StaticPromotion
