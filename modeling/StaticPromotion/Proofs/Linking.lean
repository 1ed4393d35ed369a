import StaticPromotion.Proofs.Decoding
import StaticPromotion.Proofs.Derivation

/-!
# Links to supertypes

The classes of a unit are linked to their supertypes one after the other, in the order of declaration. To find a supertype, the
members of classes are searched, inherited ones too: and what a class inherits is known only as far as the classes are linked by
then. So a link may differ from what the finished table gives for the same clause.

* `ClassDecl.clauses`        the supertypes as written, in the order in which they are looked up;
* `Table.lookUp`             the class of the unit that a clause of a class stands for, in the table as it is;
* `Table.links`, `Table.linksOf`   what is found for the clauses when their class is linked;
* `Table.searched`           the classes whose members are searched for a type;
* `Table.Settled`            all that these classes inherit from is linked already, or has no supertypes;
* `Table.Partway`            the table while some classes are linked and the others are not;
* `links_agree_if_settled`   links of settled clauses are as in the finished table, and if all are settled, then also in another
                             order, the tables are the same.
-/

namespace StaticPromotion

/-! ## clauses -/

/-- a supertype as written -/
structure Clause where
  written : String
  isInterface : Bool
deriving DecidableEq

namespace Clause

def harmless (w : Clause) : List String :=
  match w.isInterface with
  | false => Table.rootSuperclasses
  | true => Table.markerInterfaces

/-- what a supertype outside the unit does to a class -/
def unseen (w : Clause) (d : ClassDecl) : ClassDecl :=
  match w.isInterface with
  | false => { d with opaqueMethods := true, opaqueFields := true }
  | true => { d with opaqueMethods := true }

/-- the class once the clause is linked -/
def absorb (w : Clause) (found : Option ClassId) (d : ClassDecl) : ClassDecl :=
  match found with
  | some k => { d with supertypes := d.supertypes ++ [k] }
  | none => if w.harmless.contains (TypeName.clean w.written) then d else w.unseen d

theorem supertypes_absorb (w : Clause) (found : Option ClassId) (d : ClassDecl) :
    (w.absorb found d).supertypes = d.supertypes ++ found.toList := by
  obtain ⟨written, isInterface⟩ := w
  unfold absorb
  split
  · rfl
  · rw [Option.toList_none, List.append_nil]
    split
    · rfl
    · cases isInterface <;> rfl

end Clause

def ClassDecl.clauses (d : ClassDecl) : List Clause :=
  (d.superclass.filter (· != "")).toList.map (⟨·, false⟩) ++ d.interfaces.map (⟨·, true⟩)

/-- all that linking leaves as it is -/
def ClassDecl.unlinked (d : ClassDecl) : ClassDecl :=
  { d with supertypes := [], opaqueFields := false, opaqueMethods := false }

theorem Clause.unlinked_absorb (w : Clause) (found : Option ClassId) (d : ClassDecl) :
    (w.absorb found d).unlinked = d.unlinked := by
  obtain ⟨written, isInterface⟩ := w
  unfold absorb
  split
  · rfl
  · split
    · rfl
    · cases isInterface <;> rfl

/-- the links of some clauses, one after the other -/
def ClassDecl.absorbAll (d : ClassDecl) (pairs : List (Clause × Option ClassId)) : ClassDecl :=
  pairs.foldl (fun d pair => pair.1.absorb pair.2 d) d

theorem ClassDecl.supertypes_absorbAll (d : ClassDecl) (pairs : List (Clause × Option ClassId)) :
    (d.absorbAll pairs).supertypes = d.supertypes ++ (pairs.map (·.2)).filterMap id := by
  induction pairs generalizing d with
  | nil => exact (List.append_nil _).symm
  | cons pair pairs ih =>
    show ((pair.1.absorb pair.2 d).absorbAll pairs).supertypes = _
    rw [ih, Clause.supertypes_absorb, List.append_assoc]
    obtain ⟨w, _ | k⟩ := pair <;> rfl

namespace Table

variable {t t₀ s s' : Table} {c k : ClassId} {w : Clause} {ws : List Clause} {linked : List ClassId}
  {order : List ClassId}

/-- the scope that a class is declared in -/
def contextOf (t : Table) (c : ClassId) : ScopeId :=
  ((t.scopes.frame (t.decl c).scope).ancestors.head?).getD Scopes.rootId

def lookUp (t : Table) (c : ClassId) (w : Clause) : Option ClassId :=
  (t.resolveTypeText t.scopes (t.contextOf c) w.written).bind (·.cls)

def linkClause (c : ClassId) (t : Table) (w : Clause) : Table :=
  { t with classes := t.classes.modify c (w.absorb (t.lookUp c w)) }

theorem classes_ext {xs ys : Array ClassDecl} (hsize : xs.size = ys.size)
    (h : ∀ k, xs.getD k default = ys.getD k default) : xs = ys := by
  refine Array.ext hsize fun k hk hk' => ?_
  have hboth := h k
  rw [Array.getD_eq_getD_getElem?, Array.getD_eq_getD_getElem?, Array.getElem?_eq_getElem hk,
    Array.getElem?_eq_getElem hk'] at hboth
  exact hboth

theorem modify_eq_self (xs : Array ClassDecl) (c : ClassId) {change : ClassDecl → ClassDecl} (h : ∀ d, change d = d) :
    xs.modify c change = xs := by
  refine Array.ext Array.size_modify fun k _ _ => ?_
  rw [Array.getElem_modify]
  split
  · exact h _
  · rfl

theorem linkSupertype_eq (t : Table) (c : ClassId) (w : Clause) :
    linkSupertype c w.harmless w.unseen t w.written = linkClause c t w := by
  have hfound : (t.resolveTypeText t.scopes (((t.scopes.frame (t.decl c).scope).ancestors.head?).getD Scopes.rootId)
    w.written).bind (·.cls) = t.lookUp c w := rfl
  simp only [linkSupertype, linkClause, hfound]
  cases t.lookUp c w with
  | some found => rfl
  | none =>
    by_cases hharmless : w.harmless.contains (TypeName.clean w.written) = true
    · simp only [if_pos hharmless]
      rw [modify_eq_self]
      intro d
      rw [Clause.absorb, if_pos hharmless]
    · have habsorb : w.absorb none = w.unseen := by
        funext d
        rw [Clause.absorb, if_neg hharmless]
      simp only [if_neg hharmless, habsorb]

theorem decl_linkClause_of_ne (h : k ≠ c) : (linkClause c t w).decl k = t.decl k :=
  decl_modify_of_ne t _ h

theorem decl_linkClause_self (hc : c < t.classes.size) :
    (linkClause c t w).decl c = w.absorb (t.lookUp c w) (t.decl c) :=
  decl_modify_self t _ hc

theorem size_linkClause : (linkClause c t w).classes.size = t.classes.size :=
  Array.size_modify

/-! ## tables that differ by their links -/

/-- the same declarations, with perhaps other links -/
structure Relinks (t s : Table) : Prop where
  others : s = { t with classes := s.classes }
  size : s.classes.size = t.classes.size
  unlinked : ∀ k, (s.decl k).unlinked = (t.decl k).unlinked

namespace Relinks

theorem refl (t : Table) : t.Relinks t := ⟨rfl, rfl, fun _ => rfl⟩

theorem symm (h : t.Relinks s) : s.Relinks t := by
  refine ⟨?_, h.size.symm, fun k => (h.unlinked k).symm⟩
  rw [h.others]

theorem trans (h : t.Relinks s) (h' : s.Relinks s') : t.Relinks s' := by
  refine ⟨?_, h'.size.trans h.size, fun k => (h'.unlinked k).trans (h.unlinked k)⟩
  rw [h'.others, h.others]

theorem linkClause (h : t.Relinks s) (c : ClassId) (w : Clause) : t.Relinks (linkClause c s w) := by
  refine h.trans ⟨rfl, size_linkClause, fun k => ?_⟩
  exact modify_keeps ClassDecl.unlinked s c (w.unlinked_absorb _) k

theorem foldl_linkClause (h : t.Relinks s) (c : ClassId) (ws : List Clause) :
    t.Relinks (ws.foldl (Table.linkClause c) s) := by
  induction ws generalizing s with
  | nil => exact h
  | cons w ws ih => exact ih (h.linkClause c w)

section
variable (h : t.Relinks s)
include h

theorem keeps {β : Type} {f : ClassDecl → β} (hf : ∀ d, f d.unlinked = f d) (k : ClassId) :
    f (s.decl k) = f (t.decl k) := by
  rw [← hf, h.unlinked, hf]

theorem clauses (k : ClassId) : (s.decl k).clauses = (t.decl k).clauses :=
  h.keeps (fun _ => rfl) k

theorem name (k : ClassId) : (s.decl k).name = (t.decl k).name :=
  h.keeps (fun _ => rfl) k

theorem memberTypes (k : ClassId) : (s.decl k).memberTypes = (t.decl k).memberTypes :=
  h.keeps (fun _ => rfl) k

theorem scopes : s.scopes = t.scopes := by
  rw [h.others]

theorem topLevel : s.topLevel = t.topLevel := by
  rw [h.others]

theorem importedTypes : s.importedTypes = t.importedTypes := by
  rw [h.others]

theorem package : s.package = t.package := by
  rw [h.others]

theorem contextOf (k : ClassId) : s.contextOf k = t.contextOf k := by
  have hscope : (s.decl k).scope = (t.decl k).scope := h.keeps (fun _ => rfl) k
  rw [Table.contextOf, hscope, h.scopes, Table.contextOf]

theorem eq_of_decl (hdecl : ∀ k, s.decl k = t.decl k) : s = t := by
  have hclasses : s.classes = t.classes := classes_ext h.size hdecl
  rw [h.others, hclasses]

end

end Relinks

/-! ## linking one class -/

/-- the links of the clauses that are still to be looked up -/
def links (c : ClassId) : Table → List Clause → List (Option ClassId)
  | _, [] => []
  | t, w :: ws => t.lookUp c w :: links c (linkClause c t w) ws

theorem length_links (c : ClassId) (t : Table) (ws : List Clause) : (links c t ws).length = ws.length := by
  induction ws generalizing t with
  | nil => rfl
  | cons w ws ih => exact congrArg (· + 1) (ih (linkClause c t w))

theorem linkSupertypes_eq (t : Table) (c : ClassId) :
    linkSupertypes t c = (t.decl c).clauses.foldl (linkClause c) t := by
  have hfold : ∀ (isInterface : Bool) (texts : List String) (s : Table),
      texts.foldl (linkSupertype c (Clause.harmless ⟨"", isInterface⟩) (Clause.unseen ⟨"", isInterface⟩)) s =
        (texts.map (Clause.mk · isInterface)).foldl (linkClause c) s := by
    intro isInterface texts s
    rw [List.foldl_map]
    congr 1
    funext s written
    exact linkSupertype_eq s c ⟨written, isInterface⟩
  have hfirst := hfold false ((t.decl c).superclass.filter (· != "")).toList t
  generalize hs : (((t.decl c).superclass.filter (· != "")).toList.map (Clause.mk · false)).foldl
    (linkClause c) t = s at hfirst
  have hsecond : linkSupertypes t c = (s.decl c).interfaces.foldl
      (linkSupertype c (Clause.harmless ⟨"", true⟩) (Clause.unseen ⟨"", true⟩)) s := by
    rw [← hfirst]
    rfl
  -- the superclass leaves the interfaces as they are
  have hrelinks : t.Relinks s := hs ▸ (Relinks.refl t).foldl_linkClause c _
  have hinterfaces : (s.decl c).interfaces = (t.decl c).interfaces := hrelinks.keeps (fun _ => rfl) c
  rw [hsecond, hinterfaces, hfold true, ClassDecl.clauses, List.foldl_append, hs]

theorem decl_foldl_linkClause_of_ne (h : k ≠ c) (ws : List Clause) (t : Table) :
    (ws.foldl (linkClause c) t).decl k = t.decl k := by
  induction ws generalizing t with
  | nil => rfl
  | cons w ws ih => exact (ih (linkClause c t w)).trans (decl_linkClause_of_ne h)

theorem decl_foldl_linkClause_self (ws : List Clause) (hc : c < t.classes.size) :
    (ws.foldl (linkClause c) t).decl c = (t.decl c).absorbAll (ws.zip (links c t ws)) := by
  induction ws generalizing t with
  | nil => rfl
  | cons w ws ih =>
    have hrest := ih (t := linkClause c t w) (Nat.lt_of_lt_of_eq hc size_linkClause.symm)
    rw [decl_linkClause_self hc] at hrest
    exact hrest

theorem decl_linkSupertypes_of_ne (h : k ≠ c) : (linkSupertypes t c).decl k = t.decl k := by
  rw [linkSupertypes_eq, decl_foldl_linkClause_of_ne h]

theorem Relinks.linkSupertypes (h : t.Relinks s) (c : ClassId) : t.Relinks (linkSupertypes s c) := by
  rw [linkSupertypes_eq]
  exact h.foldl_linkClause c _

/-! ## linking classes in some order -/

theorem Relinks.foldl_linkSupertypes (h : t.Relinks s) (order : List ClassId) :
    t.Relinks (order.foldl Table.linkSupertypes s) := by
  induction order generalizing s with
  | nil => exact h
  | cons c order ih => exact ih (h.linkSupertypes c)

theorem decl_foldl_linkSupertypes (h : k ∉ order) (t : Table) :
    (order.foldl linkSupertypes t).decl k = t.decl k := by
  induction order generalizing t with
  | nil => rfl
  | cons c order ih =>
    obtain ⟨hne, hrest⟩ := List.ne_and_not_mem_of_not_mem_cons h
    exact (ih hrest (linkSupertypes t c)).trans (decl_linkSupertypes_of_ne hne)

/-- what is found for the clauses of a class when its turn comes in the order of declaration -/
def linksOf (t₀ : Table) (c : ClassId) : List (Option ClassId) :=
  links c ((List.range c).foldl linkSupertypes t₀) (t₀.decl c).clauses

/-- all classes, in the order of declaration -/
def linkedAll (t₀ : Table) : Table :=
  t₀.classIds.foldl linkSupertypes t₀

theorem relinks_linkedAll (t₀ : Table) : t₀.Relinks t₀.linkedAll :=
  (Relinks.refl t₀).foldl_linkSupertypes _

/-- the classes before `c` come first, and no later one changes them -/
theorem linkedAll_eq (hc : c ≤ t₀.classes.size) : ∃ later : List ClassId, (∀ j ∈ later, c ≤ j) ∧
    t₀.linkedAll = later.foldl linkSupertypes ((List.range c).foldl linkSupertypes t₀) := by
  obtain ⟨count, hcount⟩ := Nat.exists_eq_add_of_le hc
  refine ⟨(List.range count).map (c + ·), fun j hj => ?_, ?_⟩
  · obtain ⟨i, _, rfl⟩ := List.mem_map.mp hj
    exact Nat.le_add_right c i
  · rw [linkedAll, classIds, hcount, List.range_add, List.foldl_append]

theorem decl_linkedAll_of_lt (hc : c ≤ t₀.classes.size) (hk : k < c) :
    t₀.linkedAll.decl k = ((List.range c).foldl linkSupertypes t₀).decl k := by
  obtain ⟨later, hlater, heq⟩ := linkedAll_eq hc
  rw [heq, decl_foldl_linkSupertypes fun hmem => Nat.not_le_of_lt hk (hlater k hmem)]

theorem not_mem_range_self (c : ClassId) : c ∉ List.range c := fun hmem =>
  Nat.lt_irrefl c (List.mem_range.mp hmem)

theorem decl_linkedAll (hc : c < t₀.classes.size) :
    t₀.linkedAll.decl c = (t₀.decl c).absorbAll ((t₀.decl c).clauses.zip (t₀.linksOf c)) := by
  have hstage := (Relinks.refl t₀).foldl_linkSupertypes (List.range c)
  have hwaiting := decl_foldl_linkSupertypes (not_mem_range_self c) t₀
  rw [decl_linkedAll_of_lt hc (Nat.lt_succ_self c), List.range_succ, List.foldl_append]
  show (linkSupertypes _ c).decl c = _
  rw [linkSupertypes_eq, decl_foldl_linkClause_self _ (hstage.size ▸ hc), hwaiting]
  rfl

theorem supertypes_linkedAll (hc : c < t₀.classes.size) :
    (t₀.linkedAll.decl c).supertypes = (t₀.decl c).supertypes ++ (t₀.linksOf c).filterMap id := by
  have hlength : (t₀.linksOf c).length = (t₀.decl c).clauses.length := length_links c _ _
  rw [decl_linkedAll hc, ClassDecl.supertypes_absorbAll, List.map_snd_zip (Nat.le_of_eq hlength)]

/-! ## what a lookup searches -/

/-- the classes around whose members are searched for a name, up to the level that gives it -/
def searchedInLevels (t : Table) (name : String) : List Frame → List ClassId
  | [] => []
  | level :: rest =>
    match level.types.get? name, level.cls with
    | some _, _ => []
    | none, none => searchedInLevels t name rest
    | none, some c =>
      if (t.decl c).name = some name then []
      else c :: if (t.findMemberType c name).isSome then [] else searchedInLevels t name rest

/-- the classes on the way of a dotted name -/
def searchedAlong (t : Table) : Option ClassId → List String → List ClassId
  | none, _ => []
  | some _, [] => []
  | some c, name :: rest => c :: searchedAlong t (t.findMemberType c name) rest

def searched (t : Table) (scopes : Scopes) (scope : ScopeId) (text : String) : List ClassId :=
  match TypeName.segments (TypeName.clean text) with
  | [] => []
  | first :: rest => t.searchedInLevels first (scopes.levels scope) ++
      t.searchedAlong ((t.resolveTypeName scopes scope first).bind (·.cls)) rest

section
variable {next next' : ClassId → List ClassId} {unseen queue : List ClassId}

theorem breadthFirst_of_none (h : queue.find? unseen.contains = none) : breadthFirst next unseen queue = [] := by
  rw [breadthFirst]
  split
  · rfl
  · rename_i hfound
    rw [h] at hfound
    cases hfound

theorem breadthFirst_of_some (h : queue.find? unseen.contains = some c) :
    breadthFirst next unseen queue = c :: breadthFirst next (unseen.erase c) (queue ++ next c) := by
  rw [breadthFirst]
  split
  · rename_i hfound
    rw [h] at hfound
    cases hfound
  · rename_i hfound
    rw [h] at hfound
    cases hfound
    rfl

theorem breadthFirst_congr (h : ∀ k ∈ breadthFirst next unseen queue, next' k = next k) :
    breadthFirst next' unseen queue = breadthFirst next unseen queue := by
  fun_induction breadthFirst next unseen queue with
  | case1 unseen queue found => exact breadthFirst_of_none found
  | case2 unseen queue c found ih =>
    rw [breadthFirst_of_some found, h c List.mem_cons_self, ih fun k hk => h k (List.mem_cons_of_mem _ hk)]

end

namespace Relinks

variable (h : t.Relinks s)
include h

theorem hierarchy (hsame : ∀ j ∈ t.hierarchy k, (s.decl j).supertypes = (t.decl j).supertypes) :
    s.hierarchy k = t.hierarchy k := by
  have hids : s.classIds = t.classIds := by
    rw [classIds, h.size, classIds]
  rw [Table.hierarchy, hids]
  exact breadthFirst_congr hsame

theorem findMemberType (hsame : s.hierarchy k = t.hierarchy k) (name : String) :
    s.findMemberType k name = t.findMemberType k name := by
  simp only [Table.findMemberType, hsame, h.memberTypes]

/-- induction over the levels: the search ends at the same one -/
theorem findInLevels {name : String} {levels : List Frame}
    (hsame : ∀ k ∈ t.searchedInLevels name levels, s.hierarchy k = t.hierarchy k) :
    levels.findSome? (s.typeAtLevel name) = levels.findSome? (t.typeAtLevel name) := by
  induction levels with
  | nil => rfl
  | cons level rest ih =>
    have hlevel : s.typeAtLevel name level = t.typeAtLevel name level ∧
        (t.typeAtLevel name level = none → ∀ k ∈ t.searchedInLevels name rest, s.hierarchy k = t.hierarchy k) := by
      simp only [typeAtLevel, searchedInLevels, h.name] at hsame ⊢
      split
      · exact ⟨rfl, fun hnone => by cases hnone⟩
      · rename_i htypes hcls
        rw [htypes, hcls] at hsame
        exact ⟨rfl, fun _ => hsame⟩
      · rename_i c htypes hcls
        rw [htypes, hcls] at hsame
        dsimp only at hsame
        split
        · exact ⟨rfl, fun hnone => by cases hnone⟩
        · rename_i hname
          rw [if_neg hname] at hsame
          refine ⟨h.findMemberType (hsame c List.mem_cons_self) name, fun hnone k hk => ?_⟩
          rw [hnone] at hsame
          exact hsame k (List.mem_cons_of_mem _ hk)
    rw [List.findSome?_cons, List.findSome?_cons, hlevel.1]
    split
    · rfl
    · rename_i hnone
      exact ih (hlevel.2 hnone)

theorem memberPath {start : Option ClassId} {path : List String}
    (hsame : ∀ k ∈ t.searchedAlong start path, s.hierarchy k = t.hierarchy k) :
    s.memberPath start path = t.memberPath start path := by
  induction path generalizing start with
  | nil => rfl
  | cons name rest ih =>
    cases start with
    | none => exact ih fun k hk => by cases rest <;> cases hk
    | some c =>
      show s.memberPath (s.findMemberType c name) rest = t.memberPath (t.findMemberType c name) rest
      rw [h.findMemberType (hsame c List.mem_cons_self)]
      exact ih fun k hk => hsame k (List.mem_cons_of_mem _ hk)

theorem resolveTypeText {scopes : Scopes} {scope : ScopeId} {text : String}
    (hsame : ∀ k ∈ t.searched scopes scope text, s.hierarchy k = t.hierarchy k) :
    s.resolveTypeText scopes scope text = t.resolveTypeText scopes scope text := by
  simp only [Table.resolveTypeText]
  unfold searched at hsame
  cases hsegments : TypeName.segments (TypeName.clean text) with
  | nil => rfl
  | cons first rest =>
    rw [hsegments] at hsame
    have hfirst : s.resolveTypeName scopes scope first = t.resolveTypeName scopes scope first := by
      rw [Table.resolveTypeName, Table.resolveTypeName, h.topLevel, h.importedTypes,
        h.findInLevels fun k hk => hsame k (List.mem_append_left _ hk)]
    simp only [hfirst, h.package, h.topLevel]
    cases hhead : t.resolveTypeName scopes scope first with
    | none => rfl
    | some head =>
      have hpath : s.memberPath head.cls rest = t.memberPath head.cls rest :=
        h.memberPath fun k hk => hsame k (List.mem_append_right _ (by rw [hhead]; exact hk))
      simp only [hpath]

theorem lookUp (hsame : ∀ k ∈ t.searched t.scopes (t.contextOf c) w.written, s.hierarchy k = t.hierarchy k) :
    s.lookUp c w = t.lookUp c w := by
  rw [Table.lookUp, h.scopes, h.contextOf, h.resolveTypeText hsame, Table.lookUp]

end Relinks

/-! ## settled clauses -/

/-- whatever is inherited by a class that is searched is linked already -/
def Settled (t : Table) (linked : List ClassId) (c : ClassId) (w : Clause) : Prop :=
  ∀ k ∈ t.searched t.scopes (t.contextOf c) w.written,
    ∀ j ∈ t.hierarchy k, j ∈ linked ∨ (t.decl j).supertypes = []
deriving Decidable

/-- all clauses are, if the classes are linked in that order -/
def SettledAlong (t : Table) : List ClassId → List ClassId → Prop
  | _, [] => True
  | linked, c :: rest => (∀ w ∈ (t.decl c).clauses, t.Settled linked c w) ∧ SettledAlong t (linked ++ [c]) rest

instance decidableSettledAlong (t : Table) : (linked order : List ClassId) → Decidable (t.SettledAlong linked order)
  | _, [] => inferInstanceAs (Decidable True)
  | linked, c :: rest =>
    have := decidableSettledAlong t (linked ++ [c]) rest
    inferInstanceAs (Decidable ((∀ w ∈ (t.decl c).clauses, t.Settled linked c w) ∧ t.SettledAlong (linked ++ [c]) rest))

/-- some classes have all their links in `t`, and all classes have some -/
structure Precedes (s t : Table) (linked : List ClassId) : Prop where
  relinks : t.Relinks s
  done : ∀ j ∈ linked, (s.decl j).supertypes = (t.decl j).supertypes
  started : ∀ j, (s.decl j).supertypes <+: (t.decl j).supertypes

theorem Precedes.lookUp (h : s.Precedes t linked) (hsettled : t.Settled linked c w) : s.lookUp c w = t.lookUp c w := by
  refine h.relinks.lookUp fun k hk => h.relinks.hierarchy fun j hj => ?_
  rcases hsettled k hk j hj with hlinked | hnone
  · exact h.done j hlinked
  · have hstarted := h.started j
    rw [hnone] at hstarted ⊢
    exact List.prefix_nil.mp hstarted

theorem Precedes.afterClause (h : s.Precedes t linked) (hc : c ∉ linked)
    (hmore : ((linkClause c s w).decl c).supertypes <+: (t.decl c).supertypes) :
    (linkClause c s w).Precedes t linked := by
  refine ⟨h.relinks.linkClause c w, fun j hj => ?_, fun j => ?_⟩
  · have hne : j ≠ c := fun heq => hc (heq ▸ hj)
    rw [decl_linkClause_of_ne hne]
    exact h.done j hj
  · by_cases hne : j = c
    · exact hne ▸ hmore
    · rw [decl_linkClause_of_ne hne]
      exact h.started j

theorem supertypes_linkClause (hc : c < s.classes.size) :
    ((linkClause c s w).decl c).supertypes = (s.decl c).supertypes ++ (s.lookUp c w).toList := by
  rw [decl_linkClause_self hc, Clause.supertypes_absorb]

theorem filterMap_cons_eq (found : Option ClassId) (rest : List (Option ClassId)) :
    (found :: rest).filterMap id = found.toList ++ rest.filterMap id := by
  cases found <;> rfl

/-- induction over the clauses that are left: `t` has the links that follow -/
theorem Precedes.links_agree (h : s.Precedes t linked) (hc : c ∉ linked) (hsize : c < t.classes.size)
    (hlinks : (t.decl c).supertypes = (s.decl c).supertypes ++ (links c s ws).filterMap id) :
    List.Forall₂ (fun w link => t.Settled linked c w → link = t.lookUp c w) ws (links c s ws) := by
  induction ws generalizing s with
  | nil => exact .nil
  | cons w ws ih =>
    have hadded := supertypes_linkClause (s := s) (w := w) (h.relinks.size ▸ hsize)
    have hrest : (t.decl c).supertypes =
        ((linkClause c s w).decl c).supertypes ++ (links c (linkClause c s w) ws).filterMap id := by
      rw [hlinks, hadded, links, filterMap_cons_eq, List.append_assoc]
    exact .cons h.lookUp (ih (h.afterClause hc (hrest ▸ List.prefix_append _ _)) hrest)

theorem Precedes.links_eq (h : s.Precedes t linked) (hc : c ∉ linked) (hsize : c < t.classes.size)
    (hsettled : ∀ w ∈ ws, t.Settled linked c w)
    (hlinks : (t.decl c).supertypes = (s.decl c).supertypes ++ (ws.map (t.lookUp c)).filterMap id) :
    links c s ws = ws.map (t.lookUp c) := by
  induction ws generalizing s with
  | nil => rfl
  | cons w ws ih =>
    have hfirst := h.lookUp (hsettled w List.mem_cons_self)
    have hadded := supertypes_linkClause (s := s) (w := w) (h.relinks.size ▸ hsize)
    have hrest : (t.decl c).supertypes =
        ((linkClause c s w).decl c).supertypes ++ (ws.map (t.lookUp c)).filterMap id := by
      rw [hlinks, hadded, hfirst, List.map_cons, filterMap_cons_eq, List.append_assoc]
    rw [links, hfirst, List.map_cons, ih (h.afterClause hc (hrest ▸ List.prefix_append _ _))
      (fun w' hw' => hsettled w' (List.mem_cons_of_mem _ hw')) hrest]

/-! ## tables partway -/

structure Partway (t₀ t s : Table) (linked : List ClassId) : Prop where
  relinks : t.Relinks s
  done : ∀ j ∈ linked, s.decl j = t.decl j
  waiting : ∀ j, j ∉ linked → s.decl j = t₀.decl j

theorem started_linkedAll (t₀ : Table) (j : ClassId) : (t₀.decl j).supertypes <+: (t₀.linkedAll.decl j).supertypes := by
  rcases Nat.lt_or_ge j t₀.classes.size with hj | hj
  · rw [supertypes_linkedAll hj]
    exact List.prefix_append _ _
  · have hsame : t₀.linkedAll.decl j = t₀.decl j := by
      rw [decl_of_le _ hj, decl_of_le _ ((relinks_linkedAll t₀).size.symm ▸ hj)]
    exact hsame ▸ List.prefix_refl _

theorem Partway.precedes (h : Partway t₀ t₀.linkedAll s linked) : s.Precedes t₀.linkedAll linked := by
  refine ⟨h.relinks, fun j hj => by rw [h.done j hj], fun j => ?_⟩
  by_cases hj : j ∈ linked
  · exact h.done j hj ▸ List.prefix_refl _
  · rw [h.waiting j hj]
    exact started_linkedAll t₀ j

theorem partway_range (hc : c < t₀.classes.size) :
    Partway t₀ t₀.linkedAll ((List.range c).foldl linkSupertypes t₀) (List.range c) := by
  refine ⟨(relinks_linkedAll t₀).symm.foldl_linkSupertypes _, fun j hj => ?_, fun j hj => ?_⟩
  · exact (decl_linkedAll_of_lt (Nat.le_of_lt hc) (List.mem_range.mp hj)).symm
  · exact decl_foldl_linkSupertypes hj t₀

theorem linksOf_agree (hc : c < t₀.classes.size) :
    List.Forall₂ (fun w link => t₀.linkedAll.Settled (List.range c) c w → link = t₀.linkedAll.lookUp c w)
      (t₀.decl c).clauses (t₀.linksOf c) := by
  have hpartway := partway_range hc
  refine hpartway.precedes.links_agree (not_mem_range_self c) ((relinks_linkedAll t₀).size ▸ hc) ?_
  rw [supertypes_linkedAll hc, hpartway.waiting c (not_mem_range_self c)]
  rfl

theorem eq_map_of_forall₂ {α β : Type} {P : α → Prop} {f : α → β} {xs : List α} {ys : List β}
    (h : List.Forall₂ (fun x y => P x → y = f x) xs ys) (hall : ∀ x ∈ xs, P x) : ys = xs.map f := by
  induction h with
  | nil => rfl
  | cons hfirst _ ih =>
    rw [List.map_cons, hfirst (hall _ List.mem_cons_self), ih fun x hx => hall x (List.mem_cons_of_mem _ hx)]

theorem SettledAlong.settled {before after : List ClassId} (h : t.SettledAlong linked (before ++ c :: after))
    (hw : w ∈ (t.decl c).clauses) : t.Settled (linked ++ before) c w := by
  induction before generalizing linked with
  | nil =>
    rw [List.append_nil]
    exact h.1 w hw
  | cons b before ih =>
    have hrest := ih h.2
    rw [List.append_assoc] at hrest
    exact hrest

theorem linksOf_eq (hsettled : t₀.linkedAll.SettledAlong [] t₀.classIds) (hc : c < t₀.classes.size) :
    t₀.linksOf c = (t₀.decl c).clauses.map (t₀.linkedAll.lookUp c) := by
  refine eq_map_of_forall₂ (linksOf_agree hc) fun w hw => ?_
  obtain ⟨count, hcount⟩ := Nat.exists_eq_add_of_lt hc
  have hsplit : t₀.classIds = List.range c ++ c :: (List.range count).map (c + 1 + ·) := by
    rw [classIds, hcount, Nat.add_right_comm, List.range_add, List.range_succ, List.append_assoc]
    rfl
  rw [hsplit] at hsettled
  exact hsettled.settled ((relinks_linkedAll t₀).clauses c ▸ hw)

theorem Partway.next (h : Partway t₀ t₀.linkedAll s linked) (hc : c ∉ linked) (hsize : c < t₀.classes.size)
    (hself : t₀.linksOf c = (t₀.decl c).clauses.map (t₀.linkedAll.lookUp c))
    (hsettled : ∀ w ∈ (t₀.linkedAll.decl c).clauses, t₀.linkedAll.Settled linked c w) :
    Partway t₀ t₀.linkedAll (linkSupertypes s c) (linked ++ [c]) := by
  have hlt : c < t₀.linkedAll.classes.size := (relinks_linkedAll t₀).size ▸ hsize
  have hclauses := (relinks_linkedAll t₀).clauses c
  have hlinks : links c s (t₀.decl c).clauses = t₀.linksOf c := by
    rw [hself]
    refine h.precedes.links_eq hc hlt (hclauses ▸ hsettled) ?_
    rw [supertypes_linkedAll hsize, hself, h.waiting c hc]
  have hlinked : (linkSupertypes s c).decl c = t₀.linkedAll.decl c := by
    rw [linkSupertypes_eq, decl_foldl_linkClause_self _ (h.relinks.size ▸ hlt), h.waiting c hc, hlinks,
      decl_linkedAll hsize]
  refine ⟨h.relinks.linkSupertypes c, fun j hj => ?_, fun j hj => ?_⟩
  · by_cases hne : j = c
    · rw [hne, hlinked]
    · rw [decl_linkSupertypes_of_ne hne]
      exact h.done j ((List.mem_append.mp hj).resolve_right fun hmem => hne (List.mem_singleton.mp hmem))
  · rw [List.mem_append, not_or] at hj
    obtain ⟨hlater, hlast⟩ := hj
    rw [decl_linkSupertypes_of_ne fun heq => hlast (List.mem_singleton.mpr heq)]
    exact h.waiting j hlater

/-- induction over the order: what has been linked is as in the finished table -/
theorem Partway.foldl (h : Partway t₀ t₀.linkedAll s linked) (hnodup : (linked ++ order).Nodup)
    (hsize : ∀ c ∈ order, c < t₀.classes.size) (hdeclared : t₀.linkedAll.SettledAlong [] t₀.classIds)
    (hsettled : t₀.linkedAll.SettledAlong linked order) :
    Partway t₀ t₀.linkedAll (order.foldl linkSupertypes s) (linked ++ order) := by
  induction order generalizing s linked with
  | nil => exact (List.append_nil linked).symm ▸ h
  | cons c order ih =>
    have hc := hsize c List.mem_cons_self
    have hnew : c ∉ linked := fun hmem => (List.nodup_append.mp hnodup).2.2 c hmem c List.mem_cons_self rfl
    have hsplit : linked ++ c :: order = linked ++ [c] ++ order := by
      rw [List.append_assoc]
      rfl
    rw [hsplit] at hnodup ⊢
    exact ih (h.next hnew hc (linksOf_eq hdeclared hc) hsettled.1) hnodup
      (fun k hk => hsize k (List.mem_cons_of_mem _ hk)) hsettled.2

theorem linked_in_any_order (hperm : order.Perm t₀.classIds)
    (hdeclared : t₀.linkedAll.SettledAlong [] t₀.classIds) (hsettled : t₀.linkedAll.SettledAlong [] order) :
    order.foldl linkSupertypes t₀ = t₀.linkedAll := by
  have hstart : Partway t₀ t₀.linkedAll t₀ [] :=
    ⟨(relinks_linkedAll t₀).symm, fun j hj => absurd hj List.not_mem_nil, fun _ _ => rfl⟩
  have hend := hstart.foldl (hperm.nodup_iff.mpr List.nodup_range)
    (fun c hc => List.mem_range.mp (hperm.mem_iff.mp hc)) hdeclared hsettled
  refine hend.relinks.eq_of_decl fun k => ?_
  rcases Nat.lt_or_ge k t₀.classes.size with hk | hk
  · exact hend.done k (hperm.mem_iff.mpr (List.mem_range.mpr hk))
  · have hall : t₀.linkedAll.classes.size ≤ k := (relinks_linkedAll t₀).size ▸ hk
    rw [decl_of_le _ hall, decl_of_le _ (hend.relinks.size ▸ hall)]

/-- The supertypes of a class are what its clauses stood for when its turn came. For a settled clause this is the class that
the finished table gives in the scope around, or none if it gives none. If all clauses are settled in the order of declaration,
then any other order in which they are settled gives the same table. -/
theorem links_agree_if_settled {source : SourceUnit} (first : indexed source = .ok t₀) (built : ofSource source = .ok t) :
    (∀ c < t.classes.size,
      (t.decl c).supertypes = (t₀.decl c).supertypes ++ (t₀.linksOf c).filterMap id ∧
      List.Forall₂ (fun w link => t.Settled (List.range c) c w →
        link = (t.resolveTypeText t.scopes (t.contextOf c) w.written).bind (·.cls)) (t.decl c).clauses (t₀.linksOf c)) ∧
    ∀ order : List ClassId, order.Perm t.classIds → t.SettledAlong [] t.classIds → t.SettledAlong [] order →
      order.foldl linkSupertypes t₀ = t := by
  have hlinked : t = t₀.linkedAll := by
    rw [ofSource, first] at built
    exact (Except.ok.inj built).symm
  have hrelinks := relinks_linkedAll t₀
  have hids : t₀.linkedAll.classIds = t₀.classIds := by
    rw [classIds, hrelinks.size, classIds]
  subst hlinked
  refine ⟨fun c hc => ?_, fun order hperm hdeclared hsettled => ?_⟩
  · rw [hrelinks.size] at hc
    refine ⟨supertypes_linkedAll hc, ?_⟩
    rw [hrelinks.clauses]
    exact linksOf_agree hc
  · rw [hids] at hperm hdeclared
    exact linked_in_any_order hperm hdeclared hsettled

end Table

/-! ## a member type that is inherited late -/

/-- the tree of `class O extends P { class A extends X { } }` -/
def memberExtending : Node :=
  ⟨"class_declaration", true, false, 0, 43, none, [
    ⟨"class", false, false, 0, 5, none, []⟩, ⟨"identifier", true, false, 6, 7, some "name", []⟩,
    ⟨"superclass", true, false, 8, 17, some "superclass", [
      ⟨"extends", false, false, 8, 15, none, []⟩, ⟨"type_identifier", true, false, 16, 17, none, []⟩]⟩,
    ⟨"class_body", true, false, 18, 43, some "body", [
      ⟨"\x7b", false, false, 18, 19, none, []⟩,
      ⟨"class_declaration", true, false, 20, 41, none, [
        ⟨"class", false, false, 20, 25, none, []⟩, ⟨"identifier", true, false, 26, 27, some "name", []⟩,
        ⟨"superclass", true, false, 28, 37, some "superclass", [
          ⟨"extends", false, false, 28, 35, none, []⟩, ⟨"type_identifier", true, false, 36, 37, none, []⟩]⟩,
        ⟨"class_body", true, false, 38, 41, some "body", [
          ⟨"\x7b", false, false, 38, 39, none, []⟩, ⟨"\x7d", false, false, 40, 41, none, []⟩]⟩]⟩,
      ⟨"\x7d", false, false, 42, 43, none, []⟩]⟩]⟩

/-- the tree of `class X { }` at that place -/
def emptyClassAt (start : Nat) : Node :=
  ⟨"class_declaration", true, false, start, start + 11, none, [
    ⟨"class", false, false, start, start + 5, none, []⟩,
    ⟨"identifier", true, false, start + 6, start + 7, some "name", []⟩,
    ⟨"class_body", true, false, start + 8, start + 11, some "body", [
      ⟨"\x7b", false, false, start + 8, start + 9, none, []⟩,
      ⟨"\x7d", false, false, start + 10, start + 11, none, []⟩]⟩]⟩

/-- the tree of `class P { class X { } }` at that place -/
def holderAt (start : Nat) : Node :=
  ⟨"class_declaration", true, false, start, start + 23, none, [
    ⟨"class", false, false, start, start + 5, none, []⟩,
    ⟨"identifier", true, false, start + 6, start + 7, some "name", []⟩,
    ⟨"class_body", true, false, start + 8, start + 23, some "body", [
      ⟨"\x7b", false, false, start + 8, start + 9, none, []⟩,
      emptyClassAt (start + 10),
      ⟨"\x7d", false, false, start + 22, start + 23, none, []⟩]⟩]⟩

/-- `class O extends P { class A extends X { } } class P extends Q { } class Q { class X { } } class X { }` -/
def inheritedLate : SourceUnit :=
  .ofText ("class O extends P \x7b class A extends X \x7b \x7d \x7d class P extends Q \x7b \x7d " ++
    "class Q \x7b class X \x7b \x7d \x7d class X \x7b \x7d") ⟨
    ⟨"program", true, false, 0, 101, none, [
      memberExtending,
      ⟨"class_declaration", true, false, 44, 65, none, [
        ⟨"class", false, false, 44, 49, none, []⟩, ⟨"identifier", true, false, 50, 51, some "name", []⟩,
        ⟨"superclass", true, false, 52, 61, some "superclass", [
          ⟨"extends", false, false, 52, 59, none, []⟩, ⟨"type_identifier", true, false, 60, 61, none, []⟩]⟩,
        ⟨"class_body", true, false, 62, 65, some "body", [
          ⟨"\x7b", false, false, 62, 63, none, []⟩, ⟨"\x7d", false, false, 64, 65, none, []⟩]⟩]⟩,
      holderAt 66,
      emptyClassAt 90]⟩, none⟩

/-- `class O extends P { class A extends X { } } class P { class X { } } class X { }` -/
def inheritedAtOnce : SourceUnit :=
  .ofText ("class O extends P \x7b class A extends X \x7b \x7d \x7d " ++
    "class P \x7b class X \x7b \x7d \x7d class X \x7b \x7d") ⟨
    ⟨"program", true, false, 0, 79, none, [memberExtending, holderAt 44, emptyClassAt 68]⟩, none⟩

namespace Table

theorem ofSource_of_indexed {source : SourceUnit} {t₀ : Table} (h : indexed source = .ok t₀) :
    ofSource source = .ok t₀.linkedAll := by
  rw [ofSource, h]
  rfl

/-- `O` inherits the type `Q.X`, but when its member `A` is linked this is not known: `A` is linked to the other `X`. If the
later classes are linked first, then it is linked to `Q.X`. -/
theorem late_member_type_missed :
    ∃ t₀ t, indexed inheritedLate = .ok t₀ ∧ ofSource inheritedLate = .ok t ∧
      t.classIds.map t.displayName = ["O", "O.A", "P", "Q", "Q.X", "X"] ∧
      (t.decl 1).clauses = [⟨"X", false⟩] ∧ (t.decl 1).supertypes = [5] ∧
      (t.resolveTypeText t.scopes (t.contextOf 1) "X").bind (·.cls) = some 4 ∧
      (([2, 3, 4, 5, 0, 1].foldl linkSupertypes t₀).decl 1).supertypes = [4] := by
  have h : (indexed inheritedLate).toOption.any (fun t₀ => decide (
      t₀.linkedAll.classIds.map t₀.linkedAll.displayName = ["O", "O.A", "P", "Q", "Q.X", "X"] ∧
      (t₀.linkedAll.decl 1).clauses = [⟨"X", false⟩] ∧ (t₀.linkedAll.decl 1).supertypes = [5] ∧
      (t₀.linkedAll.resolveTypeText t₀.linkedAll.scopes (t₀.linkedAll.contextOf 1) "X").bind (·.cls) = some 4 ∧
      (([2, 3, 4, 5, 0, 1].foldl linkSupertypes t₀).decl 1).supertypes = [4])) = true := by
    rw [inheritedLate, SourceUnit.ofText_eq]
    decide +kernel
  obtain ⟨t₀, first, hall⟩ := Run.of_toOption_any h
  exact ⟨t₀, t₀.linkedAll, first, ofSource_of_indexed first, of_decide_eq_true hall⟩

/-- Here the type comes from a supertype of `O` itself, and the order does not matter as long as `O` is linked before `A`. -/
theorem inheritedAtOnce_linked :
    ∃ t₀ t, indexed inheritedAtOnce = .ok t₀ ∧ ofSource inheritedAtOnce = .ok t ∧
      t.classIds.map t.displayName = ["O", "O.A", "P", "P.X", "X"] ∧
      (t.decl 1).supertypes = [3] ∧
      (t.resolveTypeText t.scopes (t.contextOf 1) "X").bind (·.cls) = some 3 ∧
      [4, 3, 2, 0, 1].foldl linkSupertypes t₀ = t := by
  have h : (indexed inheritedAtOnce).toOption.any (fun t₀ => decide (
      t₀.linkedAll.classIds.map t₀.linkedAll.displayName = ["O", "O.A", "P", "P.X", "X"] ∧
      1 < t₀.linkedAll.classes.size ∧ (t₀.decl 1).supertypes = [] ∧
      (t₀.linkedAll.decl 1).clauses = [⟨"X", false⟩] ∧ t₀.linksOf 1 = [some 3] ∧
      t₀.linkedAll.Settled (List.range 1) 1 ⟨"X", false⟩ ∧
      [4, 3, 2, 0, 1].Perm t₀.linkedAll.classIds ∧ t₀.linkedAll.SettledAlong [] t₀.linkedAll.classIds ∧
      t₀.linkedAll.SettledAlong [] [4, 3, 2, 0, 1])) = true := by
    rw [inheritedAtOnce, SourceUnit.ofText_eq]
    decide +kernel
  obtain ⟨t₀, first, hall⟩ := Run.of_toOption_any h
  obtain ⟨hnames, hsize, hunlinked, hclauses, hlinks, hsettled, hperm, hdeclared, hother⟩ := of_decide_eq_true hall
  have built := ofSource_of_indexed first
  obtain ⟨heach, horder⟩ := links_agree_if_settled first built
  obtain ⟨hsupertypes, hagree⟩ := heach 1 hsize
  rw [hunlinked, hlinks] at hsupertypes
  rw [hclauses, hlinks, List.forall₂_cons] at hagree
  exact ⟨t₀, t₀.linkedAll, first, built, hnames, hsupertypes, (hagree.1 hsettled).symm, horder _ hperm hdeclared hother⟩

end Table

end StaticPromotion
