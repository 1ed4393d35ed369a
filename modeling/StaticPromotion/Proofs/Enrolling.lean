import StaticPromotion.Proofs.Linking
import StaticPromotion.Proofs.Nesting

/-!
# The names under which classes are entered

A class that is declared in the unit or among the members of a class is entered, then its own members are gone over, and only then
it gets its name, in the unit or in the class around it. A class in code gets none there.

* `Table.Carried R`   the relation `R` holds across every step of the first pass; `Carried.indexed`: then it holds across the
                      pass, by induction over its derivation;
* `Table.namesIn`     the names given to the classes in a class, or in the unit;
* `Table.Enrolled`    a class has its name there, or another class has it;
* `Table.Belongs`     a class is declared there, under that name; `Table.Rightful`: names are given only to such classes;
* `Table.Enrols`      a part of the pass enrols all classes that it enters;
* `namesIn_of_ofSource`   so if no two neighbours have the same name, then each class is found under its own.
-/

namespace StaticPromotion

variable {name : String}

theorem Registry.isSome_put {α : Type} {r : Registry α} (other : String) (v : α)
    (h : (r.get? name).isSome = true) : ((r.put other v).get? name).isSome = true := by
  by_cases hname : name = other
  · rw [hname, get?_put_self]
    rfl
  · rw [get?_put_of_ne r v hname]
    exact h

/-- what is settled about the name of a class when it is entered -/
def ClassDecl.standing (d : ClassDecl) : Option String × List ClassId × Bool :=
  (d.name, d.outers, d.isLocal)

theorem ClassDecl.standing_eq {d d' : ClassDecl} (h : d'.standing = d.standing) :
    d'.name = d.name ∧ d'.outers = d.outers ∧ d'.isLocal = d.isLocal :=
  ⟨congrArg (·.1) h, congrArg (·.2.1) h, congrArg (·.2.2) h⟩

theorem ClassDecl.name_of_properName {d : ClassDecl} (h : d.properName = some name) : d.name = some name :=
  (Option.filter_eq_some_iff.mp h).1

open Table in
/-- across what is left to do; a class that is entered gets its name later, if it gets one -/
def Duty.Carries (R : Table → Table → Prop) (t t' : Table) : Duty → Prop
  | .cls outer node _ parent => ∃ d shown, Newcomer t outer d ∧ R (t.entered node d parent shown) t'
  | _ => R t t'

/-- the members are those of a class that is there -/
def Duty.Present (t : Table) : Duty → Prop
  | .members c _ | .member c _ => c < t.classes.size
  | _ => True

namespace Table

variable {t t' t'' : Table} {c : ClassId} {outer : Option ClassId}

/-! ## relations that the pass carries -/

/-- across every step: what changes scopes only, a field or method, a class in code, and a class that gets a name -/
structure Carried (R : Table → Table → Prop) : Prop where
  refl : ∀ t, R t t
  trans : ∀ {t t' t''}, R t t' → R t' t'' → R t t''
  scopes : ∀ (t : Table) (s : Scopes), R t { t with scopes := s }
  furnishes : ∀ {t t' : Table}, t.Furnishes t' → R t t'
  inCode : ∀ {t t' : Table} {node : Node} {d : ClassDecl} {owner : Option CodeOwner} {parent : ScopeId} {shown : String},
    Newcomer t owner d → R (t.entered node d parent shown) t' → (t'.decl t.classes.size).isLocal = true → R t t'
  named : ∀ {t t' : Table} {node : Node} {d : ClassDecl} {owner : Option CodeOwner} {parent : ScopeId} {shown : String},
    Newcomer t owner d → (∀ o, owner.map (·.cls) = some o → o < t.classes.size) → R (t.entered node d parent shown) t' →
      (t'.decl t.classes.size).isLocal = false → R t (t'.enrolled (owner.map (·.cls)) t.classes.size)

section
variable {R : Table → Table → Prop} (hR : Carried R)
include hR

theorem Carried.behind_scopes {s : Scopes} (h : R { t with scopes := s } t') : R t t' :=
  hR.trans (hR.scopes t s) h

theorem Carried.indexes {duty : Duty} (h : Indexes duty t t') (hpresent : duty.Present t) : duty.Carries R t t' := by
  induction h with
  | done | noMembers | finished => exact hR.refl _
  | code _ ih | fields _ _ ih | constant _ _ _ ih | block _ _ ih => exact ih trivial
  | quiet _ _ _ ih => exact hR.behind_scopes (ih trivial)
  | visit _ _ _ ihfirst ihothers => exact hR.trans (hR.behind_scopes (ihfirst trivial)) (ihothers trivial)
  | localClass _ _ inCode ihfirst ihothers =>
    obtain ⟨d, shown, hd, hfirst⟩ := ihfirst trivial
    refine hR.trans (hR.behind_scopes (hR.inCode hd hfirst inCode)) ?_
    have hothers := ihothers trivial
    unfold nameLocal at hothers
    split at hothers
    · exact hothers
    · exact hR.behind_scopes hothers
  | anonymousClass _ _ inCode ihfirst ihothers =>
    obtain ⟨d, shown, hd, hfirst⟩ := ihfirst trivial
    exact hR.trans (hR.behind_scopes (hR.inCode hd hfirst inCode)) (ihothers trivial)
  | cls registers _ ih =>
    obtain ⟨d, shown, hd, _, hnotes⟩ := registers.entry
    refine ⟨d, shown, hd, hR.trans (hR.furnishes hnotes.toFurnishes) (ih ?_)⟩
    exact Nat.lt_of_lt_of_eq (Nat.lt_succ_self _) registers.size.symm
  | members first _ ihfirst ihothers =>
    exact hR.trans (ihfirst hpresent) (ihothers (Nat.lt_of_lt_of_le hpresent first.stays.size))
  | idle _ amends | noCode amends => exact hR.furnishes amends.toFurnishes
  | method _ _ adds _ _ _ ih => exact hR.trans (hR.furnishes adds.toFurnishes) (hR.behind_scopes (ih trivial))
  | constantBody _ _ _ _ inCode ihcodes ihnested =>
    obtain ⟨d, shown, hd, hnested⟩ := ihnested trivial
    exact hR.trans (ihcodes trivial) (hR.inCode hd hnested inCode)
  | nested _ _ amends ih =>
    obtain ⟨d, shown, hd, hnested⟩ := ih trivial
    rw [amends.enrolled]
    exact hR.named hd (fun o ho => Option.some.inj ho ▸ hpresent) hnested amends.notInCode
  | own amends _ _ ihfirst ihothers =>
    have hfirst := hR.trans (hR.furnishes amends.toFurnishes) (hR.behind_scopes (ihfirst trivial))
    exact hR.trans hfirst (ihothers trivial)
  | aside amends _ ih => exact hR.trans (hR.furnishes amends.toFurnishes) (ih trivial)
  | topLevel _ _ amends _ ihfirst ihothers =>
    obtain ⟨d, shown, hd, hfirst⟩ := ihfirst trivial
    refine hR.trans ?_ (ihothers trivial)
    rw [amends.enrolled]
    exact hR.named hd (fun o ho => by cases ho) hfirst amends.notInCode

theorem Carried.indexed {source : SourceUnit} (h : indexed source = .ok t) : R { source } t :=
  hR.indexes (indexes_of_indexed h) trivial

end

/-! ## names that were given -/

theorem hierarchy_eq_cons (hc : c < t.classes.size) : ∃ rest, t.hierarchy c = c :: rest := by
  have hfound : [c].find? t.classIds.contains = some c :=
    List.find?_cons_of_pos (List.contains_iff_mem.mpr (mem_classIds.mpr hc))
  exact ⟨_, breadthFirst_of_some hfound⟩

def namesIn (t : Table) : Option ClassId → Registry ClassId
  | none => t.topLevel
  | some o => (t.decl o).memberTypes

/-- a class that is not in code has its name, or another class there has it -/
def Enrolled (t : Table) (c : ClassId) : Prop :=
  (t.decl c).isLocal = false → ∀ name, (t.decl c).properName = some name →
    ((t.namesIn (t.decl c).outer).get? name).isSome = true

structure Belongs (t : Table) (outer : Option ClassId) (name : String) (c : ClassId) : Prop where
  lt : c < t.classes.size
  name : (t.decl c).name = some name
  outer : (t.decl c).outer = outer
  isLocal : (t.decl c).isLocal = false

def Rightful (t : Table) : Prop :=
  ∀ outer name c, (t.namesIn outer).get? name = some c → t.Belongs outer name c

structure Enrols (t t' : Table) : Prop where
  size : t.classes.size ≤ t'.classes.size
  standing : ∀ c < t.classes.size, (t'.decl c).standing = (t.decl c).standing
  kept : ∀ outer name, ((t.namesIn outer).get? name).isSome = true → ((t'.namesIn outer).get? name).isSome = true
  fresh : ∀ c, t.classes.size ≤ c → c < t'.classes.size → t'.Enrolled c
  rightful : t.Rightful → t'.Rightful

theorem Belongs.keep (h : t.Belongs outer name c) (hsize : t.classes.size ≤ t'.classes.size)
    (hstanding : (t'.decl c).standing = (t.decl c).standing) : t'.Belongs outer name c := by
  obtain ⟨hname, houters, hlocal⟩ := ClassDecl.standing_eq hstanding
  have houter : (t'.decl c).outer = (t.decl c).outer := congrArg List.head? houters
  exact ⟨Nat.lt_of_lt_of_le h.lt hsize, hname.trans h.name, houter.trans h.outer, hlocal.trans h.isLocal⟩

theorem Enrolled.keep (h : t.Enrolled c) (hstanding : (t'.decl c).standing = (t.decl c).standing)
    (hkept : ∀ outer name, ((t.namesIn outer).get? name).isSome = true →
      ((t'.namesIn outer).get? name).isSome = true) : t'.Enrolled c := by
  obtain ⟨hname, houters, hlocal⟩ := ClassDecl.standing_eq hstanding
  intro hl name hn
  rw [ClassDecl.outer, houters]
  rw [hlocal] at hl
  rw [ClassDecl.properName, hname] at hn
  exact hkept _ _ (h hl name hn)

theorem Enrols.refl (t : Table) : t.Enrols t :=
  ⟨Nat.le_refl _, fun _ _ => rfl, fun _ _ h => h, fun _ hge hlt => absurd hlt (Nat.not_lt.mpr hge), id⟩

theorem Enrols.trans (h : t.Enrols t') (h' : t'.Enrols t'') : t.Enrols t'' where
  size := Nat.le_trans h.size h'.size
  standing c hc := (h'.standing c (Nat.lt_of_lt_of_le hc h.size)).trans (h.standing c hc)
  kept outer name hsome := h'.kept outer name (h.kept outer name hsome)
  fresh c hge hlt := by
    rcases Nat.lt_or_ge c t'.classes.size with hold | hnew
    · exact (h.fresh c hge hold).keep (h'.standing c hold) h'.kept
    · exact h'.fresh c hnew hlt
  rightful hrightful := h'.rightful (h.rightful hrightful)

theorem enrols_of_same (hsize : t'.classes.size = t.classes.size)
    (hstanding : ∀ c, (t'.decl c).standing = (t.decl c).standing)
    (hnames : ∀ outer, t'.namesIn outer = t.namesIn outer) : t.Enrols t' := by
  refine ⟨Nat.le_of_eq hsize.symm, fun c _ => hstanding c, fun outer name h => by rw [hnames]; exact h,
    fun c hge hlt => absurd hlt (Nat.not_lt.mpr (hsize ▸ hge)), fun hrightful outer name c hc => ?_⟩
  rw [hnames] at hc
  exact (hrightful outer name c hc).keep (Nat.le_of_eq hsize.symm) (hstanding c)

theorem lt_of_namesIn {o : ClassId} (h : ((t.namesIn (some o)).get? name).isSome = true) :
    o < t.classes.size := by
  rcases Nat.lt_or_ge o t.classes.size with hlt | hge
  · exact hlt
  · rw [namesIn, decl_of_le t hge] at h
    cases h

/-! ## entering and naming a class -/

section
variable {node : Node} {d : ClassDecl} {parent : ScopeId} {shown : String}

theorem namesIn_entered_of_isSome (h : ((t.namesIn outer).get? name).isSome = true) :
    (t.entered node d parent shown).namesIn outer = t.namesIn outer := by
  cases outer with
  | none => rfl
  | some o => rw [namesIn, decl_entered_of_lt t node d parent shown (lt_of_namesIn h), namesIn]

theorem Rightful.entered (h : t.Rightful) (hd : d.memberTypes = []) : (t.entered node d parent shown).Rightful := by
  intro outer name c hc
  have hold : ((t.namesIn outer).get? name).isSome = true := by
    cases outer with
    | none =>
      replace hc : t.topLevel.get? name = some c := hc
      exact Option.isSome_of_eq_some hc
    | some o =>
      have hlt := lt_of_namesIn (Option.isSome_of_eq_some hc)
      rw [size_entered] at hlt
      rcases Nat.lt_succ_iff_lt_or_eq.mp hlt with holder | rfl
      · rw [namesIn, decl_entered_of_lt t node d parent shown holder] at hc
        exact Option.isSome_of_eq_some hc
      · rw [namesIn, decl_entered_self] at hc
        replace hc : d.memberTypes.get? name = some c := hc
        rw [hd] at hc
        cases hc
  rw [namesIn_entered_of_isSome hold] at hc
  have hbelongs := h outer name c hc
  refine hbelongs.keep ?_ (by rw [decl_entered_of_lt t node d parent shown hbelongs.lt])
  rw [size_entered]
  exact Nat.le_succ _

/-- a class is entered; that it is enrolled in the end is shown apart -/
theorem Enrols.of_entered (h : (t.entered node d parent shown).Enrols t') (hd : d.memberTypes = [])
    (hself : t'.Enrolled t.classes.size) : t.Enrols t' := by
  have hsize := size_entered t node d parent shown
  refine ⟨?_, fun c hc => ?_, fun outer name hsome => ?_, fun c hge hlt => ?_, fun hrightful => ?_⟩
  · exact Nat.le_trans (hsize ▸ Nat.le_succ _) h.size
  · rw [h.standing c (hsize ▸ Nat.lt_succ_of_lt hc), decl_entered_of_lt t node d parent shown hc]
  · refine h.kept outer name ?_
    rw [namesIn_entered_of_isSome hsome]
    exact hsome
  · rcases Nat.eq_or_lt_of_le hge with rfl | hnew
    · exact hself
    · exact h.fresh c (hsize ▸ hnew) hlt
  · exact h.rightful (hrightful.entered hd)

theorem standing_of_entered (h : (t.entered node d parent shown).Enrols t') :
    t.classes.size < t'.classes.size ∧ (t'.decl t.classes.size).standing = d.standing := by
  have hlt : t.classes.size < (t.entered node d parent shown).classes.size :=
    (size_entered t node d parent shown).symm ▸ Nat.lt_succ_self _
  refine ⟨Nat.lt_of_lt_of_le hlt h.size, ?_⟩
  rw [h.standing _ hlt, decl_entered_self]
  rfl

end

theorem standing_enrolled (t : Table) (outer : Option ClassId) (c k : ClassId) :
    ((t.enrolled outer c).decl k).standing = (t.decl k).standing := by
  unfold enrolled
  split
  · rfl
  · rfl
  · refine modify_keeps ClassDecl.standing t _ ?_ k
    intro d
    rfl

theorem size_enrolled (t : Table) (outer : Option ClassId) (c : ClassId) :
    (t.enrolled outer c).classes.size = t.classes.size := by
  unfold enrolled
  split
  · rfl
  · rfl
  · exact Array.size_modify

theorem namesIn_enrolled_of_ne {other : Option ClassId} (h : other ≠ outer) :
    (t.enrolled outer c).namesIn other = t.namesIn other := by
  unfold enrolled
  split
  · rfl
  · cases other with
    | none => exact absurd rfl h
    | some o => rfl
  · rename_i name o _
    cases other with
    | none => rfl
    | some o' =>
      have hne : o' ≠ o := fun heq => h (congrArg some heq)
      rw [namesIn, decl_modify_of_ne t _ hne, namesIn]

theorem namesIn_enrolled (hname : (t.decl c).properName = some name)
    (houter : ∀ o, outer = some o → o < t.classes.size) :
    (t.enrolled outer c).namesIn outer = (t.namesIn outer).put name c := by
  unfold enrolled
  rw [hname]
  cases outer with
  | none => rfl
  | some o =>
    show (decl { t with classes := t.classes.modify o _ } o).memberTypes = _
    rw [decl_modify_self t _ (houter o rfl), namesIn]

theorem enrolled_of_none (hname : (t.decl c).properName = none) : t.enrolled outer c = t := by
  unfold enrolled
  rw [hname]

theorem enrolled_self (houter : ∀ o, (t.decl c).outer = some o → o < t.classes.size) :
    (t.enrolled (t.decl c).outer c).Enrolled c := by
  obtain ⟨hname, houters, _⟩ := ClassDecl.standing_eq (standing_enrolled t (t.decl c).outer c c)
  have hsame : ((t.enrolled (t.decl c).outer c).decl c).outer = (t.decl c).outer := congrArg List.head? houters
  intro _ name hn
  rw [ClassDecl.properName, hname] at hn
  rw [hsame, namesIn_enrolled hn houter, Registry.get?_put_self]
  rfl

theorem enrols_enrolled (hc : c < t.classes.size) (hlocal : (t.decl c).isLocal = false)
    (houter : ∀ o, (t.decl c).outer = some o → o < t.classes.size) : t.Enrols (t.enrolled (t.decl c).outer c) := by
  cases hname : (t.decl c).properName with
  | none =>
    rw [enrolled_of_none hname]
    exact .refl t
  | some name =>
    have hsize := size_enrolled t (t.decl c).outer c
    have hstanding := standing_enrolled t (t.decl c).outer c
    have hput := namesIn_enrolled hname houter
    refine ⟨Nat.le_of_eq hsize.symm, fun k _ => hstanding k, fun outer other hsome => ?_,
      fun k hge hlt => absurd hlt (Nat.not_lt.mpr (hsize ▸ hge)), fun hrightful outer other k hk => ?_⟩
    · by_cases hsame : outer = (t.decl c).outer
      · rw [hsame, hput]
        exact Registry.isSome_put name c (hsame ▸ hsome)
      · rw [namesIn_enrolled_of_ne hsame]
        exact hsome
    · have hbelongs : t.Belongs outer other k := by
        by_cases hsame : outer = (t.decl c).outer
        · rw [hsame, hput] at hk
          by_cases hother : other = name
          · rw [hother, Registry.get?_put_self] at hk
            cases hk
            exact ⟨hc, hother ▸ ClassDecl.name_of_properName hname, hsame.symm, hlocal⟩
          · rw [Registry.get?_put_of_ne _ _ hother, ← hsame] at hk
            exact hrightful outer other k hk
        · rw [namesIn_enrolled_of_ne hsame] at hk
          exact hrightful outer other k hk
      exact hbelongs.keep (Nat.le_of_eq hsize.symm) (hstanding k)

/-! ## the pass -/

theorem carried_enrols : Carried Enrols where
  refl := .refl
  trans := .trans
  scopes t s := enrols_of_same rfl (fun _ => rfl) fun outer => by cases outer <;> rfl
  furnishes {t t'} h := by
    refine enrols_of_same h.size (fun k => ?_) fun outer => ?_
    · have hsettled := h.settled k
      exact congrArg (fun p => (p.1.1, p.2.2.1, p.1.2.2)) hsettled
    · cases outer with
      | none => exact h.topLevel
      | some o => exact congrArg (·.1) (h.links o)
  inCode {t t' node d owner parent shown} hd h hlocal :=
    h.of_entered hd.memberTypes fun hnot => absurd (hlocal.symm.trans hnot) (by decide)
  named {t t' node d owner parent shown} hd houter h hlocal := by
    obtain ⟨hlt, hstanding⟩ := standing_of_entered h
    have hself : (t'.decl t.classes.size).outer = owner.map (·.cls) := by
      rw [ClassDecl.outer, (ClassDecl.standing_eq hstanding).2.1, hd.outers]
      cases owner <;> rfl
    have hpresent : ∀ o, (t'.decl t.classes.size).outer = some o → o < t'.classes.size := fun o ho =>
      Nat.lt_trans (houter o (hself ▸ ho)) hlt
    have hnamed := enrols_enrolled hlt hlocal hpresent
    have henrolled := enrolled_self hpresent
    rw [hself] at hnamed henrolled
    exact (h.trans hnamed).of_entered hd.memberTypes henrolled

theorem Relinks.enrols (h : t.Relinks t') : t.Enrols t' := by
  refine enrols_of_same h.size (h.keeps (fun _ => rfl)) fun outer => ?_
  cases outer with
  | none => exact h.topLevel
  | some o => exact h.memberTypes o

theorem rightful_start (source : SourceUnit) : Rightful { source } := by
  intro outer name c hc
  cases outer <;> cases hc

/-- no two classes next to each other, neither of them in code, have the same name -/
def SiblingsDistinct (t : Table) : Prop :=
  ∀ j ∈ t.classIds, ∀ k ∈ t.classIds, (t.decl j).isLocal = false → (t.decl k).isLocal = false →
    (t.decl j).outer = (t.decl k).outer → (t.decl j).properName = (t.decl k).properName →
      (t.decl j).properName = none ∨ j = k
deriving Decidable

section
variable {source : SourceUnit} (built : ofSource source = .ok t)
include built

theorem enrols_of_ofSource : Enrols { source } t := by
  obtain ⟨t₀, first, hdone⟩ := Run.of_except_bind built
  cases hdone
  exact (carried_enrols.indexed first).trans (relinks_linkedAll t₀).enrols

theorem namesIn_of_ofSource (distinct : t.SiblingsDistinct) (hc : c < t.classes.size)
    (hlocal : (t.decl c).isLocal = false) (hname : (t.decl c).properName = some name) :
    (t.namesIn (t.decl c).outer).get? name = some c := by
  have henrols := enrols_of_ofSource built
  obtain ⟨k, hk⟩ := Option.isSome_iff_exists.mp (henrols.fresh c (Nat.zero_le c) hc hlocal name hname)
  obtain ⟨hlt, hname', houter, hlocal'⟩ := henrols.rightful (rightful_start source) _ name k hk
  have hproper : (t.decl c).properName = (t.decl k).properName := by
    rw [ClassDecl.properName, ClassDecl.name_of_properName hname, ClassDecl.properName, hname']
  have hsame := distinct c (mem_classIds.mpr hc) k (mem_classIds.mpr hlt) hlocal hlocal' houter.symm hproper
  rcases hsame with hnone | rfl
  · rw [hname] at hnone
    cases hnone
  · exact hk

end

end Table

end StaticPromotion
