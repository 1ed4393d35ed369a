import Mathlib.Data.List.Chain
import StaticPromotion.Proofs.Enrolling
import StaticPromotion.Proofs.Passing

/-!
# Canonical names

The name under which a class is shown is the row of names from its top-level class inwards. Read as a type at the outermost scope,
it leads back to the class: the first name is looked up in the unit, and each of the others in the class before it. With the
package in front the first name is no type, and then only the last one is looked up, among the top-level classes.

* `TypeName.IsPlain`          a name in which nothing is taken out when it is read as a type;
* `TypeName.clean_dotted`, `TypeName.segments_dotted`     a row of plain names with dots between is read as it is;
* `Table.IsCanonical`         a class that is reached from its top-level class by member declarations, all with plain names;
* `Table.namesTo`             the names on the way to it;
* `canonical_names_resolve`   what these names stand for, without the package and with it.
-/

namespace StaticPromotion

/-! ## plain names -/

namespace TypeName

open Text

variable {cs : List Char}

/-- no dot, and kept wherever it stands -/
def isPlainChar (c : Char) : Bool :=
  !(c == '.' || c == '<' || c == '>' || c == '@' || c == '[' || isBlank c)

def IsPlain (name : String) : Prop :=
  name ≠ "" ∧ ∀ c ∈ name.toList, isPlainChar c = true

-- by the characters of the name, and not by all characters that there are
instance decidableIsPlain (name : String) : Decidable (IsPlain name) :=
  decidable_of_iff (name ≠ "" ∧ name.toList.all isPlainChar = true) (and_congr_right' List.all_eq_true)

theorem ne_of_isPlainChar {c d : Char} (h : isPlainChar c = true) (hd : isPlainChar d = false) : c ≠ d := by
  rintro rfl
  rw [h] at hd
  cases hd

theorem isBlank_of_isPlainChar {c : Char} (h : isPlainChar c = true) : isBlank c = false := by
  rw [isPlainChar, Bool.not_eq_true', Bool.or_eq_false_iff] at h
  exact h.2

theorem dropAnnotations_eq_self (h : '@' ∉ cs) : dropAnnotations cs = cs := by
  induction cs with
  | nil => rw [dropAnnotations]
  | cons c rest ih =>
    obtain ⟨hfirst, hrest⟩ := List.ne_and_not_mem_of_not_mem_cons h
    rw [dropAnnotations, if_neg fun hboth => hfirst hboth.1.symm, ih hrest]

theorem outside_eq_self (hopen : '<' ∉ cs) (hclose : '>' ∉ cs) : outside 0 cs = cs := by
  induction cs with
  | nil => rfl
  | cons c rest ih =>
    obtain ⟨hopen', hopenRest⟩ := List.ne_and_not_mem_of_not_mem_cons hopen
    obtain ⟨hclose', hcloseRest⟩ := List.ne_and_not_mem_of_not_mem_cons hclose
    rw [outside, if_pos rfl, ih hopenRest hcloseRest]
    · exact fun heq => hopen' heq.symm
    · exact fun heq => hclose' heq.symm

theorem dropPairs_eq_self (h : '[' ∉ cs) : dropPairs cs = cs := by
  fun_induction dropPairs cs with
  | case1 rest ih => exact absurd List.mem_cons_self h
  | case2 c rest _ ih => rw [ih (List.not_mem_of_not_mem_cons h)]
  | case3 => rfl

/-- no dot follows a dot -/
def Spaced (cs : List Char) : Prop :=
  cs.IsChain fun a b => ¬ (a = '.' ∧ b = '.')

theorem dropDots_eq_self (h : Spaced cs) : dropDots cs = cs := by
  fun_induction dropDots cs with
  | case1 rest ih => exact absurd ⟨rfl, rfl⟩ (List.isChain_cons_cons.mp h).1
  | case2 c rest _ ih => rw [ih h.tail]
  | case3 => rfl

theorem dropWhile_eq_self (h : ∀ c ∈ cs, isBlank c = false) : cs.dropWhile isBlank = cs := by
  cases cs with
  | nil => rfl
  | cons c rest => rw [List.dropWhile_cons_of_neg (by rw [h c List.mem_cons_self]; exact Bool.false_ne_true)]

theorem strip_eq_self (h : ∀ c ∈ cs, isBlank c = false) : strip cs = cs := by
  have hreverse : ∀ c ∈ cs.reverse, isBlank c = false := fun c hc => h c (List.mem_reverse.mp hc)
  rw [strip, dropWhile_eq_self h, dropWhile_eq_self hreverse, List.reverse_reverse]

theorem cleanChars_eq_self (hplain : ∀ c ∈ cs, c = '.' ∨ isPlainChar c = true) (hspaced : Spaced cs) :
    cleanChars cs = cs := by
  have hnot : ∀ d, d ≠ '.' → isPlainChar d = false → d ∉ cs := fun d hdot hd hmem =>
    (hplain d hmem).elim hdot fun h => ne_of_isPlainChar h hd rfl
  have hblank : ∀ c ∈ cs, isBlank c = false := by
    intro c hc
    rcases hplain c hc with rfl | h
    · decide
    · exact isBlank_of_isPlainChar h
  have hspace : cs.filter (· != ' ') = cs := by
    refine List.filter_eq_self.mpr fun c hc => bne_iff_ne.mpr ?_
    rintro rfl
    exact absurd (hblank ' ' hc) (by decide)
  rw [cleanChars, dropAnnotations_eq_self (hnot '@' (by decide) (by decide)),
    outside_eq_self (hnot '<' (by decide) (by decide)) (hnot '>' (by decide) (by decide)),
    dropPairs_eq_self (hnot '[' (by decide) (by decide)), dropDots_eq_self hspaced, hspace, strip_eq_self hblank]

/-! ## names with dots between -/

section
variable {names : List (List Char)}

theorem mem_dotted {c : Char} (h : c ∈ ['.'].intercalate names) : c = '.' ∨ ∃ name ∈ names, c ∈ name := by
  induction names with
  | nil => cases h
  | cons name rest ih =>
    cases rest with
    | nil =>
      rw [List.intercalate_singleton] at h
      exact .inr ⟨name, List.mem_cons_self, h⟩
    | cons next rest =>
      rw [List.intercalate_cons_cons, List.mem_append, List.mem_append] at h
      rcases h with (hname | hdot) | hrest
      · exact .inr ⟨name, List.mem_cons_self, hname⟩
      · exact .inl (List.mem_singleton.mp hdot)
      · refine (ih hrest).imp_right fun hmem => ?_
        obtain ⟨name', hname', hc⟩ := hmem
        exact ⟨name', List.mem_cons_of_mem _ hname', hc⟩

theorem spaced_of_no_dot {cs : List Char} (h : '.' ∉ cs) : Spaced cs := by
  induction cs with
  | nil => exact .nil
  | cons c rest ih =>
    cases rest with
    | nil => exact .singleton c
    | cons d rest =>
      obtain ⟨hfirst, hrest⟩ := List.ne_and_not_mem_of_not_mem_cons h
      exact .cons_cons (fun hboth => hfirst hboth.1.symm) (ih hrest)

/-- names are not empty, so a dot stands between two that have none -/
theorem spaced_dotted (hnonempty : ∀ name ∈ names, name ≠ []) (hdots : ∀ name ∈ names, '.' ∉ name) :
    Spaced (['.'].intercalate names) := by
  induction names with
  | nil => exact .nil
  | cons name rest ih =>
    have hname := spaced_of_no_dot (hdots name List.mem_cons_self)
    cases rest with
    | nil =>
      rw [List.intercalate_singleton]
      exact hname
    | cons next rest =>
      have hrest := ih (fun n hn => hnonempty n (List.mem_cons_of_mem _ hn)) fun n hn =>
        hdots n (List.mem_cons_of_mem _ hn)
      have hnext : ∀ c ∈ (['.'].intercalate (next :: rest)).head?, c ≠ '.' := by
        have hnextDots := hdots next (List.mem_cons_of_mem _ List.mem_cons_self)
        cases next with
        | nil => exact absurd rfl (hnonempty [] (List.mem_cons_of_mem _ List.mem_cons_self))
        | cons d tail =>
          intro c hc
          have hd : c = d := by
            cases rest with
            | nil =>
              rw [List.intercalate_singleton] at hc
              exact (Option.some.inj hc).symm
            | cons after rest =>
              rw [List.intercalate_cons_cons] at hc
              exact (Option.some.inj hc).symm
          exact hd ▸ (List.ne_and_not_mem_of_not_mem_cons hnextDots).1.symm
      rw [List.intercalate_cons_cons, List.append_assoc]
      refine List.isChain_append.mpr ⟨hname, List.isChain_append.mpr ⟨.singleton _, hrest, ?_⟩, ?_⟩
      · exact fun a _ b hb hboth => hnext b hb hboth.2
      · intro a ha b _ hboth
        exact hdots name List.mem_cons_self (hboth.1 ▸ List.mem_of_mem_getLast? ha)

theorem splitDots_of_no_dot {cs : List Char} (h : '.' ∉ cs) : splitDots cs = [cs] := by
  induction cs with
  | nil => rfl
  | cons c rest ih =>
    obtain ⟨hfirst, hrest⟩ := List.ne_and_not_mem_of_not_mem_cons h
    rw [splitDots, if_neg (Ne.symm hfirst), ih hrest]

theorem splitDots_append {cs : List Char} (h : '.' ∉ cs) (rest : List Char) :
    splitDots (cs ++ '.' :: rest) = cs :: splitDots rest := by
  induction cs with
  | nil => rw [List.nil_append, splitDots, if_pos rfl]
  | cons c cs ih =>
    obtain ⟨hfirst, hcs⟩ := List.ne_and_not_mem_of_not_mem_cons h
    rw [List.cons_append, splitDots, if_neg (Ne.symm hfirst), ih hcs]

theorem splitDots_dotted (hne : names ≠ []) (hdots : ∀ name ∈ names, '.' ∉ name) :
    splitDots (['.'].intercalate names) = names := by
  induction names with
  | nil => exact absurd rfl hne
  | cons name rest ih =>
    have hname := hdots name List.mem_cons_self
    cases rest with
    | nil => rw [List.intercalate_singleton, splitDots_of_no_dot hname]
    | cons next rest =>
      rw [List.intercalate_cons_cons, List.append_assoc, List.singleton_append, splitDots_append hname,
        ih (List.cons_ne_nil _ _) fun n hn => hdots n (List.mem_cons_of_mem _ hn)]

end

theorem toList_dotted (names : List String) :
    (".".intercalate names).toList = ['.'].intercalate (names.map String.toList) :=
  String.toList_intercalate

section
variable {names : List String} (hplain : ∀ name ∈ names, IsPlain name)
include hplain

theorem no_dot_of_plain : ∀ cs ∈ names.map String.toList, '.' ∉ cs := by
  intro cs hcs hdot
  obtain ⟨name, hname, rfl⟩ := List.mem_map.mp hcs
  exact ne_of_isPlainChar ((hplain name hname).2 '.' hdot) (by decide) rfl

theorem clean_dotted : clean (".".intercalate names) = ".".intercalate names := by
  have hnonempty : ∀ cs ∈ names.map String.toList, cs ≠ [] := by
    intro cs hcs
    obtain ⟨name, hname, rfl⟩ := List.mem_map.mp hcs
    exact fun hnil => (hplain name hname).1 (String.toList_eq_nil_iff.mp hnil)
  have hchars : ∀ c ∈ ['.'].intercalate (names.map String.toList), c = '.' ∨ isPlainChar c = true := by
    intro c hc
    refine (mem_dotted hc).imp_right fun hfound => ?_
    obtain ⟨cs, hcs, hmem⟩ := hfound
    obtain ⟨name, hname, rfl⟩ := List.mem_map.mp hcs
    exact (hplain name hname).2 c hmem
  have hclean := cleanChars_eq_self hchars (spaced_dotted hnonempty (no_dot_of_plain hplain))
  rw [clean, toList_dotted, hclean, ← toList_dotted, String.ofList_toList]

theorem segments_dotted (hne : names ≠ []) : segments (".".intercalate names) = names := by
  have hne' : names.map String.toList ≠ [] := fun hnil => hne (List.map_eq_nil_iff.mp hnil)
  have hback : (String.ofList ∘ String.toList : String → String) = id := by
    funext name
    exact String.ofList_toList
  rw [segments, toList_dotted, splitDots_dotted hne' (no_dot_of_plain hplain), List.map_map, hback, List.map_id]

/-- a row of plain names can be told from its shown form, so a longer row has another one -/
theorem dotted_eq_iff {before after : List String} (hne : before ≠ []) (hnames : names = before ++ after) :
    ".".intercalate names = ".".intercalate before ↔ after = [] := by
  have hne' : names ≠ [] := fun hnil => hne (List.append_eq_nil_iff.mp (hnames.symm.trans hnil)).1
  have hbefore : ∀ name ∈ before, IsPlain name := fun name hname =>
    hplain name (hnames ▸ List.mem_append_left _ hname)
  constructor
  · intro h
    have hsame : names = before := by
      rw [← segments_dotted hplain hne', h, segments_dotted hbefore hne]
    rw [hnames] at hsame
    exact List.append_right_eq_self.mp hsame
  · rintro rfl
    rw [hnames, List.append_nil]

end

end TypeName

namespace Table

variable {t : Table} {c : ClassId} {source : SourceUnit} {name : String}

/-! ## the way to a class -/

structure IsCanonical (t : Table) (c : ClassId) : Prop where
  lt : c < t.classes.size
  isMember : ∀ k ∈ c :: (t.decl c).outers, (t.decl k).isLocal = false
  plain : ∀ k ∈ c :: (t.decl c).outers, TypeName.IsPlain ((t.decl k).name.getD "")

instance decidableIsCanonical (t : Table) (c : ClassId) : Decidable (t.IsCanonical c) :=
  decidable_of_iff (c < t.classes.size ∧ (∀ k ∈ c :: (t.decl c).outers, (t.decl k).isLocal = false) ∧
      ∀ k ∈ c :: (t.decl c).outers, TypeName.IsPlain ((t.decl k).name.getD ""))
    ⟨fun h => ⟨h.1, h.2.1, h.2.2⟩, fun h => ⟨h.lt, h.isMember, h.plain⟩⟩

/-- from the outermost inwards -/
def namesTo (t : Table) (c : ClassId) : List String :=
  (c :: (t.decl c).outers).reverse.map fun k => (t.decl k).name.getD ""

theorem namesTo_eq (t : Table) (c : ClassId) : t.namesTo c =
    ((t.decl c).outers.reverse.map fun k => (t.decl k).name.getD "") ++ [(t.decl c).name.getD ""] := by
  rw [namesTo, List.reverse_cons, List.map_append]
  rfl

theorem getLast?_append_namesTo (t : Table) (c : ClassId) (front : List String) :
    (front ++ t.namesTo c).getLast? = some ((t.decl c).name.getD "") := by
  rw [namesTo_eq, ← List.append_assoc, List.getLast?_concat]

theorem properName_of_plain {d : ClassDecl} (h : TypeName.IsPlain (d.name.getD "")) :
    d.properName = some (d.name.getD "") := by
  rw [ClassDecl.properName]
  cases hname : d.name with
  | none =>
    rw [hname] at h
    exact absurd rfl h.1
  | some name =>
    rw [hname] at h
    exact Option.filter_eq_some_iff.mpr ⟨rfl, bne_iff_ne.mpr h.1⟩

theorem IsCanonical.plain_names (h : t.IsCanonical c) : ∀ name ∈ t.namesTo c, TypeName.IsPlain name := by
  intro name hname
  obtain ⟨k, hk, rfl⟩ := List.mem_map.mp hname
  exact h.plain k (List.mem_reverse.mp hk)

theorem namesTo_ne_nil (t : Table) (c : ClassId) : t.namesTo c ≠ [] := by
  rw [namesTo_eq]
  exact List.append_ne_nil_of_right_ne_nil _ (List.cons_ne_nil _ _)

theorem IsCanonical.displayName (h : t.IsCanonical c) : t.displayName c = ".".intercalate (t.namesTo c) := by
  rw [Table.displayName, dottedName, List.map_map, namesTo]
  congr 1
  refine List.map_congr_left fun k hk => ?_
  have hproper := properName_of_plain (h.plain k (List.mem_reverse.mp hk))
  show ownName (t.decl k).name (t.decl k).line = _
  rw [ownName]
  rw [ClassDecl.properName] at hproper
  rw [hproper]

section
variable (built : ofSource source = .ok t) {o : ClassId}
include built

theorem outers_of_outer (hc : c < t.classes.size) (ho : (t.decl c).outer = some o) :
    (t.decl c).outers = o :: (t.decl o).outers ∧ o < c := by
  have houters := (preordered_of_ofSource built).outers c hc
  rw [ho] at houters
  refine ⟨houters, (sound_of_ofSource built).outers_lt c hc o ?_⟩
  rw [houters]
  exact List.mem_cons_self

theorem IsCanonical.outer (h : t.IsCanonical c) (ho : (t.decl c).outer = some o) : t.IsCanonical o := by
  obtain ⟨houters, hlt⟩ := outers_of_outer built h.lt ho
  have hsub : ∀ k ∈ o :: (t.decl o).outers, k ∈ c :: (t.decl c).outers := by
    intro k hk
    rw [houters]
    exact List.mem_cons_of_mem _ hk
  exact ⟨Nat.lt_trans hlt h.lt, fun k hk => h.isMember k (hsub k hk), fun k hk => h.plain k (hsub k hk)⟩

theorem namesTo_of_outer (hc : c < t.classes.size) (ho : (t.decl c).outer = some o) :
    t.namesTo c = t.namesTo o ++ [(t.decl c).name.getD ""] := by
  rw [namesTo_eq, (outers_of_outer built hc ho).1, namesTo]

end

/-! ## looking up the way -/

theorem findMemberType_own {k : ClassId} (hc : c < t.classes.size)
    (h : (t.decl c).memberTypes.get? name = some k) : t.findMemberType c name = some k := by
  obtain ⟨rest, hline⟩ := hierarchy_eq_cons hc
  rw [findMemberType, hline, List.findSome?_cons, h]

theorem memberPath_append (start : Option ClassId) (path : List String) (name : String) :
    t.memberPath start (path ++ [name]) = (t.memberPath start path).bind (t.findMemberType · name) := by
  rw [memberPath, List.foldl_append, memberPath]
  rfl

/-! ## the outermost scope -/

/-- no type of the unit, imported or known anyway -/
def NamesNoType (t : Table) (name : String) : Prop :=
  t.topLevel.get? name = none ∧ t.importedTypes.get? name = none ∧ name ∉ platformTypes
deriving Decidable

section
variable (built : ofSource source = .ok t)
include built

theorem levels_outermost : t.scopes.levels Scopes.rootId = [{ label := "unit" }] := by
  obtain ⟨t₀, hran, hamends⟩ := ran_unit built
  have hroot : t.scopes.frame Scopes.rootId = { label := "unit" } := by
    rw [hamends.scopes]
    exact hran.spans.spares.frame Scopes.rootId Nat.zero_lt_one id rfl
  rw [Scopes.levels, Scopes.chain, hroot, List.map_cons, hroot]
  rfl

theorem findSome?_outermost (name : String) :
    (t.scopes.levels Scopes.rootId).findSome? (t.typeAtLevel name) = none := by
  rw [levels_outermost built]
  rfl

theorem resolveTypeName_topLevel (h : t.topLevel.get? name = some c) :
    t.resolveTypeName t.scopes Scopes.rootId name = some ⟨name, some c⟩ := by
  rw [resolveTypeName, findSome?_outermost built, h]

theorem resolveTypeName_none (h : t.NamesNoType name) :
    t.resolveTypeName t.scopes Scopes.rootId name = none := by
  obtain ⟨htop, himported, hplatform⟩ := h
  have hunknown : ((t.importedTypes.get? name).isSome || platformTypes.contains name) = false := by
    rw [himported, Option.isSome_none, Bool.false_or, Bool.eq_false_iff]
    exact fun hmem => hplatform (List.contains_iff_mem.mp hmem)
  rw [resolveTypeName, findSome?_outermost built, htop]
  exact if_neg (hunknown ▸ Bool.false_ne_true)

end

theorem IsCanonical.name_found (h : t.IsCanonical c) (built : ofSource source = .ok t)
    (distinct : t.SiblingsDistinct) :
    (t.namesIn (t.decl c).outer).get? ((t.decl c).name.getD "") = some c :=
  namesIn_of_ofSource built distinct h.lt (h.isMember c List.mem_cons_self)
    (properName_of_plain (h.plain c List.mem_cons_self))

/-- induction over the nesting: the names up to a class lead to it -/
theorem IsCanonical.path (built : ofSource source = .ok t) (distinct : t.SiblingsDistinct) (h : t.IsCanonical c) :
    ∃ first top rest, t.namesTo c = first :: rest ∧ t.topLevel.get? first = some top ∧
      t.memberPath (some top) rest = some c := by
  induction c using Nat.strongRecOn with
  | ind c ih =>
    have hname := h.name_found built distinct
    cases ho : (t.decl c).outer with
    | none =>
      rw [ho] at hname
      refine ⟨_, c, [], ?_, hname, rfl⟩
      rw [namesTo_eq, List.head?_eq_none_iff.mp ho]
      rfl
    | some o =>
      rw [ho] at hname
      have houter := h.outer built ho
      obtain ⟨first, top, rest, hnames, htop, hpath⟩ := ih o (outers_of_outer built h.lt ho).2 houter
      refine ⟨first, top, rest ++ [(t.decl c).name.getD ""], ?_, htop, ?_⟩
      · rw [namesTo_of_outer built h.lt ho, hnames, List.cons_append]
      · rw [memberPath_append, hpath]
        exact findMemberType_own houter.lt hname

/-! ## rows of names -/

section
variable {scopes : Scopes} {scope : ScopeId} {first : String} {rest : List String}
  (hplain : ∀ name ∈ first :: rest, TypeName.IsPlain name)
include hplain

theorem dotted_ne_empty : ".".intercalate (first :: rest) ≠ "" := by
  intro hempty
  have hsegments := TypeName.segments_dotted hplain (List.cons_ne_nil _ _)
  rw [hempty] at hsegments
  have hfirst : "" = first := (List.cons.inj hsegments).1
  exact (hplain first List.mem_cons_self).1 hfirst.symm

/-- the first name is a type, and the others are looked up in it -/
theorem resolveTypeText_of_head {head : TypeRef} (hhead : t.resolveTypeName scopes scope first = some head) :
    t.resolveTypeText scopes scope (".".intercalate (first :: rest)) =
      some ⟨".".intercalate (first :: rest), t.memberPath head.cls rest⟩ := by
  simp only [resolveTypeText, TypeName.clean_dotted hplain, TypeName.segments_dotted hplain (List.cons_ne_nil _ _),
    if_neg (dotted_ne_empty hplain), hhead]

/-- the first name is no type: then all names but the last are the package, or the type is not of the unit -/
theorem resolveTypeText_of_package {last : String} (hhead : t.resolveTypeName scopes scope first = none)
    (hlast : rest.getLast? = some last) :
    t.resolveTypeText scopes scope (".".intercalate (first :: rest)) =
      some ⟨".".intercalate (first :: rest),
        if ".".intercalate (first :: rest).dropLast = t.package then t.topLevel.get? last else none⟩ := by
  simp only [resolveTypeText, TypeName.clean_dotted hplain, TypeName.segments_dotted hplain (List.cons_ne_nil _ _),
    if_neg (dotted_ne_empty hplain), hhead, hlast]
  split <;> rfl

end

/-- all names but the last are the package only in front of a top-level class -/
theorem IsCanonical.package_iff (h : t.IsCanonical c) {package : List String} (hne : package ≠ [])
    (hplain : ∀ name ∈ package, TypeName.IsPlain name) :
    ".".intercalate (package ++ t.namesTo c).dropLast = ".".intercalate package ↔ (t.decl c).outer = none := by
  have hdropped : (package ++ t.namesTo c).dropLast =
      package ++ (t.decl c).outers.reverse.map fun k => (t.decl k).name.getD "" := by
    rw [namesTo_eq, ← List.append_assoc, List.dropLast_concat]
  have hall : ∀ name ∈ (package ++ t.namesTo c).dropLast, TypeName.IsPlain name := fun name hname =>
    (List.mem_append.mp (List.dropLast_subset _ hname)).elim (hplain name) (h.plain_names name)
  rw [TypeName.dotted_eq_iff hall hne hdropped, List.map_eq_nil_iff, List.reverse_eq_nil_iff, ClassDecl.outer,
    List.head?_eq_none_iff]

/-- Where no two classes next to each other have the same name, the shown name of a class that is reached by member
declarations is read, in the outermost scope, as this class. With the package in front it is read as the class if it is a
top-level one, and as a type outside the unit if it is a member, however deep. -/
theorem canonical_names_resolve (built : ofSource source = .ok t) (distinct : t.SiblingsDistinct) (canonical : t.IsCanonical c) :
    t.resolveTypeText t.scopes Scopes.rootId (t.displayName c) = some ⟨t.displayName c, some c⟩ ∧
    ∀ first rest, t.package = ".".intercalate (first :: rest) → (∀ name ∈ first :: rest, TypeName.IsPlain name) →
      t.NamesNoType first →
      t.resolveTypeText t.scopes Scopes.rootId (t.package ++ "." ++ t.displayName c) =
        some ⟨t.package ++ "." ++ t.displayName c, if (t.decl c).outer = none then some c else none⟩ := by
  have hplain := canonical.plain_names
  refine ⟨?_, fun first rest hpackage hplain' hunknown => ?_⟩
  · obtain ⟨top, k, path, hnames, htop, hpath⟩ := canonical.path built distinct
    rw [canonical.displayName]
    rw [hnames] at hplain ⊢
    rw [resolveTypeText_of_head hplain (resolveTypeName_topLevel built htop), hpath]
  · have hwritten : t.package ++ "." ++ t.displayName c = ".".intercalate (first :: (rest ++ t.namesTo c)) := by
      rw [canonical.displayName, hpackage, ← List.cons_append,
        String.intercalate_append_of_ne_nil (List.cons_ne_nil _ _) (namesTo_ne_nil t c)]
    have hall : ∀ name ∈ first :: (rest ++ t.namesTo c), TypeName.IsPlain name := by
      intro name hname
      rw [← List.cons_append, List.mem_append] at hname
      exact hname.elim (hplain' name) (hplain name)
    have hpackaged := canonical.package_iff (List.cons_ne_nil first rest) hplain'
    rw [← hpackage, List.cons_append] at hpackaged
    rw [hwritten, resolveTypeText_of_package hall (resolveTypeName_none built hunknown) (getLast?_append_namesTo t c rest)]
    by_cases ho : (t.decl c).outer = none
    · have hfound := canonical.name_found built distinct
      rw [ho] at hfound
      rw [if_pos (hpackaged.mpr ho), if_pos ho]
      exact congrArg (fun found => some (TypeRef.mk _ found)) hfound
    · rw [if_neg (mt hpackaged.mp ho), if_neg ho]

end Table

/-! ## a member class in a package -/

/-- `package p.q; class A { class B { } }` -/
def packagedMember : SourceUnit :=
  .ofText "package p.q; class A \x7b class B \x7b \x7d \x7d" ⟨
    ⟨"program", true, false, 0, 36, none, [
      ⟨"package_declaration", true, false, 0, 12, none, [
        ⟨"package", false, false, 0, 7, none, []⟩,
        ⟨"scoped_identifier", true, false, 8, 11, none, [
          ⟨"identifier", true, false, 8, 9, none, []⟩, ⟨".", false, false, 9, 10, none, []⟩,
          ⟨"identifier", true, false, 10, 11, none, []⟩]⟩,
        ⟨";", false, false, 11, 12, none, []⟩]⟩,
      holderAt 13]⟩, none⟩

namespace Table

/-- the class `B` in `A`, and the package that they are in -/
def HoldsMember (t : Table) : Prop :=
  t.IsCanonical 0 ∧ t.IsCanonical 1 ∧ t.SiblingsDistinct ∧ (t.decl 0).outer = none ∧ (t.decl 1).outer = some 0 ∧
  t.displayName 0 = "A" ∧ t.displayName 1 = "A.B" ∧ t.package = "p.q" ∧ t.NamesNoType "p"
deriving Decidable

theorem packagedMember_holds : ∃ t, ofSource packagedMember = .ok t ∧ t.HoldsMember ∧
    t.resolveTypeText t.scopes Scopes.rootId "p.q.A.B" = some ⟨"p.q.A.B", none⟩ := by
  have h : (ofSource packagedMember).toOption.any (fun t => decide (t.HoldsMember ∧
      t.resolveTypeText t.scopes Scopes.rootId "p.q.A.B" = some ⟨"p.q.A.B", none⟩)) = true := by
    rw [packagedMember, SourceUnit.ofText_eq]
    decide +kernel
  obtain ⟨t, built, hall⟩ := Run.of_toOption_any h
  exact ⟨t, built, of_decide_eq_true hall⟩

/-- The canonical name of `B` in its package is taken for a type outside the unit. -/
theorem packaged_member_missed :
    ∃ t, ofSource packagedMember = .ok t ∧ t.SiblingsDistinct ∧ t.IsCanonical 1 ∧ t.package = "p.q" ∧ t.NamesNoType "p" ∧
      t.displayName 1 = "A.B" ∧ t.resolveTypeText t.scopes Scopes.rootId "p.q.A.B" = some ⟨"p.q.A.B", none⟩ := by
  obtain ⟨t, built, hholds, hmissed⟩ := packagedMember_holds
  obtain ⟨_, hcanonical, hdistinct, _, _, _, hshown, hpackage, hnone⟩ := hholds
  exact ⟨t, built, hdistinct, hcanonical, hpackage, hnone, hshown, hmissed⟩

/-- Without the package both classes are found, and with it the outer one. -/
theorem packagedMember_names :
    ∃ t, ofSource packagedMember = .ok t ∧
      t.resolveTypeText t.scopes Scopes.rootId "A.B" = some ⟨"A.B", some 1⟩ ∧
      t.resolveTypeText t.scopes Scopes.rootId "p.q.A" = some ⟨"p.q.A", some 0⟩ ∧
      t.resolveTypeText t.scopes Scopes.rootId "p.q.A.B" = some ⟨"p.q.A.B", none⟩ := by
  obtain ⟨t, built, hholds, _⟩ := packagedMember_holds
  obtain ⟨hcanonical₀, hcanonical₁, hdistinct, htop, houter, hshown₀, hshown₁, hpackage, hnone⟩ := hholds
  have hplain : ∀ name ∈ ["p", "q"], TypeName.IsPlain name := by decide
  have hwith₀ := (canonical_names_resolve built hdistinct hcanonical₀).2 "p" ["q"] hpackage hplain hnone
  obtain ⟨hwithout, hwith⟩ := canonical_names_resolve built hdistinct hcanonical₁
  have hwith₁ := hwith "p" ["q"] hpackage hplain hnone
  rw [hpackage, hshown₀, htop, if_pos rfl] at hwith₀
  rw [hshown₁] at hwithout
  rw [hpackage, hshown₁, houter, if_neg (Option.some_ne_none 0)] at hwith₁
  exact ⟨t, built, hwithout, hwith₀, hwith₁⟩

end Table

end StaticPromotion
