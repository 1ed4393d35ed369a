import Mathlib.Data.List.TakeWhile
import StaticPromotion.Proofs.CanonicalNames

/-!
# Annotations in the text of a type

An annotation is found by the letters right behind its `@`, and by a parenthesis right behind these. So one that is written without
white space, with a name of word characters, goes as a whole; of any other something stays.

* `Annotation`           an `@`, a dotted name and perhaps arguments, with the white space in between;
* `dropAnnotations_append`   annotations are taken out part by part, if no part breaks off in the middle of one;
* `Annotation.IsTight`   no white space in it, and a name of word characters: nothing of it is left;
* `Annotation.Glares`    its `@` stays or a parenthesis does. Of one that is neither, letters stay: `Annotation.residue`;
* `Balanced`             what may stand between angle brackets. Annotations in it are no concern, as all of it goes:
                         `Balanced.reduced_eq`.
-/

namespace StaticPromotion.TypeName

open Text

variable {c d : Char} {cs rest : List Char} {depth : Int}

/-! ## characters -/

/-- no mark that means something in a type, and no blank -/
def isNameChar (c : Char) : Bool :=
  isPlainChar c && !(c == '(' || c == ')' || c == ']')

theorem isPlainChar_of_isNameChar (h : isNameChar c = true) : isPlainChar c = true :=
  (Bool.and_eq_true_iff.mp h).1

theorem ne_of_isNameChar (h : isNameChar c = true) (hd : isNameChar d = false) : c ≠ d := by
  rintro rfl
  rw [h] at hd
  cases hd

theorem ne_of_isBlank (h : isBlank c = true) (hd : isBlank d = false) : c ≠ d := by
  rintro rfl
  rw [h] at hd
  cases hd

theorem isBlank_of_isNameChar (h : isNameChar c = true) : isBlank c = false :=
  isBlank_of_isPlainChar (isPlainChar_of_isNameChar h)

theorem mem_of_inRanges {ranges : List (Nat × Nat)} {code : Nat} (h : inRanges ranges code = true) :
    code ∈ ranges.flatMap fun r => List.range' r.1 (r.2 + 1 - r.1) := by
  obtain ⟨r, hr, hin⟩ := List.any_eq_true.mp h
  refine List.mem_flatMap.mpr ⟨r, hr, List.mem_range'_1.mpr ?_⟩
  simp only [Bool.and_eq_true, decide_eq_true_eq] at hin
  omega

theorem isAnnotationChar_of_isBlank (h : isBlank c = true) : isAnnotationChar c = false := by
  have hall : ∀ code ∈ blankRanges.flatMap (fun r => List.range' r.1 (r.2 + 1 - r.1)),
      isAnnotationChar (Char.ofNat code) = false := by decide +kernel
  have hcode := hall c.toNat (mem_of_inRanges h)
  rwa [Char.ofNat_toNat] at hcode

/-- letters of names, dots and blanks -/
def Plain (cs : List Char) : Prop :=
  ∀ c ∈ cs, isNameChar c = true ∨ c = '.' ∨ isBlank c = true

theorem Plain.not_mem (h : Plain cs)
    (hd : isNameChar d = false ∧ d ≠ '.' ∧ isBlank d = false) : d ∉ cs := by
  intro hmem
  rcases h d hmem with hname | hdot | hblank
  · exact ne_of_isNameChar hname hd.1 rfl
  · exact hd.2.1 hdot
  · exact ne_of_isBlank hblank hd.2.2 rfl

theorem Plain.append {ds : List Char} (h : Plain cs) (h' : Plain ds) : Plain (cs ++ ds) :=
  fun c hc => (List.mem_append.mp hc).elim (h c) (h' c)

theorem Plain.subset {ds : List Char} (h : Plain cs) (hsubset : ds ⊆ cs) : Plain ds :=
  fun c hc => h c (hsubset hc)

/-! ## annotations -/

structure Gap where
  chars : List Char
  blank : ∀ c ∈ chars, isBlank c = true

structure Identifier where
  chars : List Char
  nonempty : chars ≠ []
  proper : ∀ c ∈ chars, isNameChar c = true

theorem Gap.plain (g : Gap) : Plain g.chars :=
  fun c hc => .inr (.inr (g.blank c hc))

theorem Identifier.plain (i : Identifier) : Plain i.chars :=
  fun c hc => .inl (i.proper c hc)

/-- the first character, if any, goes on with no annotation -/
def StartsApart (rest : List Char) : Prop :=
  ∀ c ∈ rest.head?, isAnnotationChar c = false ∧ c ≠ '('

structure Annotation where
  /-- after the `@` -/
  space : Gap
  first : Identifier
  /-- the parts of the name after dots, with the white space on both sides of each dot -/
  others : List (Gap × Gap × Identifier)
  /-- what stands between parentheses, and the white space in front of them -/
  arguments : Option (Gap × List Char)
  closed : ∀ g ∈ arguments, '(' ∉ g.2 ∧ ')' ∉ g.2

namespace Annotation

def nameChars (a : Annotation) : List Char :=
  a.first.chars ++ a.others.flatMap fun o => o.1.chars ++ '.' :: (o.2.1.chars ++ o.2.2.chars)

def argumentChars (a : Annotation) : List Char :=
  match a.arguments with
  | none => []
  | some (gap, inside) => gap.chars ++ '(' :: (inside ++ [')'])

def chars (a : Annotation) : List Char :=
  '@' :: (a.space.chars ++ (a.nameChars ++ a.argumentChars))

def IsTight (a : Annotation) : Prop :=
  a.space.chars = [] ∧ (∀ c ∈ a.nameChars, isAnnotationChar c = true) ∧ ∀ g ∈ a.arguments, g.1.chars = []

/-- what follows is not taken for a part of the annotation -/
def EndsBefore (a : Annotation) (rest : List Char) : Prop :=
  a.arguments = none → StartsApart rest

theorem plain_nameChars (a : Annotation) : Plain a.nameChars := by
  refine a.first.plain.append fun c hc => ?_
  obtain ⟨o, _, ho⟩ := List.mem_flatMap.mp hc
  rcases List.mem_append.mp ho with hgap | ho
  · exact o.1.plain c hgap
  · rcases List.mem_cons.mp ho with hdot | ho
    · exact .inr (.inl hdot)
    · exact (o.2.1.plain.append o.2.2.plain) c ho

theorem nameChars_eq_cons (a : Annotation) : ∃ c rest, a.nameChars = c :: rest ∧ isNameChar c = true := by
  obtain ⟨c, rest, hfirst⟩ := List.exists_cons_of_ne_nil a.first.nonempty
  refine ⟨c, _, by rw [nameChars, hfirst, List.cons_append], a.first.proper c ?_⟩
  rw [hfirst]
  exact List.mem_cons_self

theorem nameChars_eq_concat (a : Annotation) :
    ∃ front c, a.nameChars = front ++ [c] ∧ isNameChar c = true := by
  have hlast : ∀ i : Identifier, ∃ front c, i.chars = front ++ [c] ∧ isNameChar c = true := by
    intro i
    have hmem := i.proper _ (List.getLast_mem i.nonempty)
    exact ⟨_, _, (List.dropLast_append_getLast i.nonempty).symm, hmem⟩
  rcases List.eq_nil_or_concat a.others with hnil | ⟨before, o, hothers⟩
  · obtain ⟨front, c, hfirst, hc⟩ := hlast a.first
    exact ⟨front, c, by rw [nameChars, hnil, List.flatMap_nil, List.append_nil, hfirst], hc⟩
  · obtain ⟨front, c, hpart, hc⟩ := hlast o.2.2
    refine ⟨a.first.chars ++ ((before.flatMap fun o => o.1.chars ++ '.' :: (o.2.1.chars ++ o.2.2.chars)) ++
      (o.1.chars ++ '.' :: (o.2.1.chars ++ front))), c, ?_, hc⟩
    rw [nameChars, hothers, List.concat_eq_append, List.flatMap_append, List.flatMap_singleton, hpart]
    simp only [List.append_assoc, List.cons_append]

end Annotation

/-! ## annotations are taken out part by part -/

/-- a parenthesis that is opened is closed -/
def Closed (cs : List Char) : Prop :=
  ∀ before after, cs = before ++ '(' :: after → ')' ∈ after

theorem Closed.suffix (h : Closed cs) (hrest : rest <:+ cs) : Closed rest := by
  obtain ⟨front, rfl⟩ := hrest
  intro before after heq
  exact h (front ++ before) after (by rw [heq, List.append_assoc])

theorem dropWhile_append_of_stop {p : Char → Bool} (cs : List Char)
    (h : ∀ c ∈ rest.head?, p c = false) : (cs ++ rest).dropWhile p = cs.dropWhile p ++ rest := by
  rw [List.dropWhile_append]
  split
  · rename_i hnil
    rw [List.isEmpty_iff.mp hnil, List.nil_append]
    cases rest with
    | nil => rfl
    | cons c rest => exact List.dropWhile_cons_of_neg (by rw [h c rfl]; exact Bool.false_ne_true)
  · rfl

theorem dropArguments_eq_self (h : ∀ c ∈ cs.head?, c ≠ '(') : dropArguments cs = cs := by
  cases cs with
  | nil => rfl
  | cons c rest =>
    unfold dropArguments
    split
    · rename_i heq
      exact absurd (List.cons.inj heq).1 (h c rfl)
    · rfl

theorem dropArguments_closed {inside : List Char} (h : ')' ∉ inside) (rest : List Char) :
    dropArguments ('(' :: (inside ++ ')' :: rest)) = rest := by
  have hstop : (inside ++ ')' :: rest).dropWhile (· != ')') = ')' :: rest := by
    rw [List.dropWhile_append_of_pos (p := (· != ')')) fun c hc => bne_iff_ne.mpr fun heq => h (heq ▸ hc)]
    exact List.dropWhile_cons_of_neg (by decide)
  rw [dropArguments, hstop]

theorem dropArguments_suffix (cs : List Char) : dropArguments cs <:+ cs := by
  unfold dropArguments
  split
  · rename_i rest
    split
    · exact List.suffix_rfl
    · rename_i head after hafter
      have hsuffix : rest.dropWhile (· != ')') <:+ rest := List.dropWhile_suffix _
      rw [hafter] at hsuffix
      exact ((List.suffix_cons head after).trans hsuffix).trans (List.suffix_cons '(' rest)
  · exact List.suffix_rfl

theorem dropArguments_append (hclosed : Closed cs) (hrest : StartsApart rest) :
    dropArguments (cs ++ rest) = dropArguments cs ++ rest := by
  cases cs with
  | nil => exact dropArguments_eq_self fun c hc => (hrest c hc).2
  | cons c cs =>
    by_cases hopen : c = '('
    · subst hopen
      obtain ⟨inside, after, rfl, hinside⟩ := List.eq_append_cons_of_mem (hclosed [] cs rfl)
      rw [List.cons_append, List.append_assoc, List.cons_append, dropArguments_closed hinside,
        dropArguments_closed hinside]
    · rw [dropArguments_eq_self fun d hd => by cases hd; exact hopen,
        dropArguments_eq_self fun d hd => by cases hd; exact hopen]

theorem dropAnnotations_at (h : rest.head?.any isAnnotationChar = true) :
    dropAnnotations ('@' :: rest) = dropAnnotations (dropArguments (rest.dropWhile isAnnotationChar)) := by
  rw [dropAnnotations, if_pos ⟨rfl, h⟩]

theorem dropAnnotations_keep (h : ¬ (c = '@' ∧ rest.head?.any isAnnotationChar = true)) :
    dropAnnotations (c :: rest) = c :: dropAnnotations rest := by
  rw [dropAnnotations, if_neg h]

theorem dropAnnotations_append_of_no_at (h : '@' ∉ cs) (rest : List Char) :
    dropAnnotations (cs ++ rest) = cs ++ dropAnnotations rest := by
  induction cs with
  | nil => rfl
  | cons c cs ih =>
    obtain ⟨hfirst, hrest⟩ := List.ne_and_not_mem_of_not_mem_cons h
    rw [List.cons_append, dropAnnotations_keep fun hboth => hfirst hboth.1.symm, ih hrest]
    rfl

theorem dropAnnotations_append (hclosed : Closed cs) (hrest : StartsApart rest) :
    dropAnnotations (cs ++ rest) = dropAnnotations cs ++ dropAnnotations rest := by
  -- along the recursion: what is left after an annotation is a suffix, which is closed as well
  induction cs using dropAnnotations.induct with
  | case1 => rw [List.nil_append, dropAnnotations.eq_def [], List.nil_append]
  | case2 c tail hat ih =>
    obtain ⟨rfl, hhead⟩ := hat
    have hhead' : (tail ++ rest).head?.any isAnnotationChar = true := by
      cases tail with
      | nil => cases hhead
      | cons d tail => exact hhead
    have hdropped : tail.dropWhile isAnnotationChar <:+ '@' :: tail :=
      (List.dropWhile_suffix _).trans (List.suffix_cons '@' tail)
    rw [List.cons_append, dropAnnotations_at hhead', dropAnnotations_at hhead,
      dropWhile_append_of_stop tail fun d hd => (hrest d hd).1,
      dropArguments_append (hclosed.suffix hdropped) hrest,
      ih (hclosed.suffix ((dropArguments_suffix _).trans hdropped))]
  | case3 c tail hat ih =>
    have hnot : ¬ (c = '@' ∧ (tail ++ rest).head?.any isAnnotationChar = true) := by
      rintro ⟨hc, hany⟩
      cases tail with
      | nil =>
        cases rest with
        | nil => cases hany
        | cons d rest => exact absurd ((hrest d rfl).1.symm.trans hany) Bool.false_ne_true
      | cons d tail => exact hat ⟨hc, hany⟩
    rw [List.cons_append, dropAnnotations_keep hnot, dropAnnotations_keep hat,
      ih (hclosed.suffix (List.suffix_cons c tail))]
    rfl

namespace Annotation

variable {a : Annotation}

theorem argumentChars_of_none (h : a.arguments = none) : a.argumentChars = [] := by
  rw [argumentChars, h]

theorem argumentChars_of_some {g : Gap × List Char} (h : a.arguments = some g) :
    a.argumentChars = g.1.chars ++ '(' :: (g.2 ++ [')']) := by
  rw [argumentChars, h]

theorem IsTight.dropAnnotations_eq (h : a.IsTight) {rest : List Char} (hrest : a.EndsBefore rest) :
    dropAnnotations (a.chars ++ rest) = dropAnnotations rest := by
  obtain ⟨hspace, hname, harguments⟩ := h
  have hafter : dropArguments ((a.argumentChars ++ rest).dropWhile isAnnotationChar) = rest := by
    cases hargs : a.arguments with
    | none =>
      rw [argumentChars_of_none hargs, List.nil_append, ← List.nil_append rest,
        dropWhile_append_of_stop [] fun c hc => (hrest hargs c hc).1]
      exact dropArguments_eq_self fun c hc => (hrest hargs c hc).2
    | some g =>
      rw [argumentChars_of_some hargs, harguments g hargs, List.nil_append, List.cons_append,
        List.append_assoc, List.dropWhile_cons_of_neg (by decide)]
      exact dropArguments_closed (a.closed g hargs).2 rest
  have hhead : (a.nameChars ++ (a.argumentChars ++ rest)).head?.any isAnnotationChar = true := by
    obtain ⟨c, tail, hcons, _⟩ := a.nameChars_eq_cons
    rw [hcons]
    exact hname c (hcons ▸ List.mem_cons_self)
  have hchars : a.chars ++ rest = '@' :: (a.nameChars ++ (a.argumentChars ++ rest)) := by
    rw [chars, hspace, List.nil_append, List.cons_append, List.append_assoc]
  rw [hchars, dropAnnotations_at hhead, List.dropWhile_append_of_pos hname, hafter]

end Annotation

/-- the letters after an `@` go, up to a character that is in no word -/
theorem dropAnnotations_stuck (hhead : cs.head?.any isAnnotationChar = true)
    (hplain : Plain cs) (hstuck : cs.dropWhile isAnnotationChar ≠ []) (rest : List Char) :
    dropAnnotations ('@' :: (cs ++ rest)) = cs.dropWhile isAnnotationChar ++ dropAnnotations rest := by
  have hhead' : (cs ++ rest).head?.any isAnnotationChar = true := by
    cases cs with
    | nil => cases hhead
    | cons c cs => exact hhead
  have hdropped : (cs ++ rest).dropWhile isAnnotationChar = cs.dropWhile isAnnotationChar ++ rest := by
    rw [List.dropWhile_append, if_neg (by rwa [List.isEmpty_iff])]
  have hplain' := hplain.subset (List.dropWhile_sublist isAnnotationChar).subset
  have hkept : dropArguments (cs.dropWhile isAnnotationChar ++ rest) =
      cs.dropWhile isAnnotationChar ++ rest := by
    refine dropArguments_eq_self fun c hc heq => hplain'.not_mem (d := '(') (by decide) ?_
    obtain ⟨d, after, hcons⟩ := List.exists_cons_of_ne_nil hstuck
    rw [hcons] at hc ⊢
    cases hc
    exact heq ▸ List.mem_cons_self
  rw [dropAnnotations_at hhead', hdropped, hkept, dropAnnotations_append_of_no_at (hplain'.not_mem (by decide))]

namespace Annotation

variable {a : Annotation}

/-- the `@` stays, or a parenthesis does -/
def Glares (a : Annotation) : Prop :=
  ¬ a.IsTight ∧ (a.space.chars ≠ [] ∨ a.nameChars.head?.any isAnnotationChar = false ∨ a.arguments ≠ none)

/-- what is left of an annotation that does not glare -/
def residue (a : Annotation) : List Char :=
  a.nameChars.dropWhile isAnnotationChar

theorem residue_of_tight (h : a.IsTight) : a.residue = [] :=
  List.dropWhile_eq_nil_iff.mpr h.2.1

/-- the last character of the name is left, if anything is -/
theorem exists_mem_residue (h : a.residue ≠ []) : ∃ c ∈ a.residue, isNameChar c = true := by
  obtain ⟨front, c, hname, hc⟩ := a.nameChars_eq_concat
  refine ⟨c, ?_, hc⟩
  unfold residue at h ⊢
  rw [hname, List.dropWhile_append] at h ⊢
  split at h
  · rename_i hnil
    rw [if_pos hnil]
    cases hword : isAnnotationChar c with
    | true =>
      rw [List.dropWhile_cons_of_pos hword] at h
      exact absurd rfl h
    | false =>
      rw [List.dropWhile_cons_of_neg (by rw [hword]; exact Bool.false_ne_true)]
      exact List.mem_singleton.mpr rfl
  · rename_i hsome
    rw [if_neg hsome]
    exact List.mem_append_right _ (List.mem_singleton.mpr rfl)

theorem plain_residue (a : Annotation) : Plain a.residue :=
  a.plain_nameChars.subset (List.dropWhile_sublist _).subset

/-- an annotation that neither glares nor is tight has letters that are not taken for the name, and nothing else to show -/
theorem dropAnnotations_residue (htight : ¬ a.IsTight) (hglares : ¬ a.Glares) :
    a.residue ≠ [] ∧ ∀ rest, dropAnnotations (a.chars ++ rest) = a.residue ++ dropAnnotations rest := by
  obtain ⟨hspace, hhead, harguments⟩ :
      a.space.chars = [] ∧ a.nameChars.head?.any isAnnotationChar = true ∧ a.arguments = none := by
    by_contra hnot
    refine hglares ⟨htight, ?_⟩
    by_cases hspace : a.space.chars = []
    · by_cases harguments : a.arguments = none
      · exact .inr (.inl (Bool.eq_false_iff.mpr fun hhead => hnot ⟨hspace, hhead, harguments⟩))
      · exact .inr (.inr harguments)
    · exact .inl hspace
  have hstuck : a.residue ≠ [] := by
    intro hnil
    refine htight ⟨hspace, List.dropWhile_eq_nil_iff.mp hnil, fun g hg => ?_⟩
    rw [harguments] at hg
    cases hg
  refine ⟨hstuck, fun rest => ?_⟩
  rw [chars, hspace, argumentChars_of_none harguments, List.append_nil, List.nil_append, List.cons_append,
    dropAnnotations_stuck hhead a.plain_nameChars hstuck]
  rfl

end Annotation

/-! ## what stands at depth zero -/

theorem outside_cons (hopen : c ≠ '<') (hclose : c ≠ '>') (depth : Int) (rest : List Char) :
    outside depth (c :: rest) = if depth = 0 then c :: outside depth rest else outside depth rest := by
  rw [outside]
  · exact hopen
  · exact hclose

theorem outside_append_plain (hopen : '<' ∉ cs) (hclose : '>' ∉ cs) (rest : List Char) :
    outside 0 (cs ++ rest) = cs ++ outside 0 rest := by
  induction cs with
  | nil => rfl
  | cons c cs ih =>
    obtain ⟨hopen', hopenRest⟩ := List.ne_and_not_mem_of_not_mem_cons hopen
    obtain ⟨hclose', hcloseRest⟩ := List.ne_and_not_mem_of_not_mem_cons hclose
    rw [List.cons_append, outside_cons hopen'.symm hclose'.symm, if_pos rfl, ih hopenRest hcloseRest]
    rfl

/-- annotations and type arguments are gone -/
def reduced (cs : List Char) : List Char :=
  outside 0 (dropAnnotations cs)

theorem reduced_append_of_no_mark (hat : '@' ∉ cs) (hopen : '<' ∉ cs) (hclose : '>' ∉ cs)
    (rest : List Char) : reduced (cs ++ rest) = cs ++ reduced rest := by
  rw [reduced, dropAnnotations_append_of_no_at hat, outside_append_plain hopen hclose, reduced]

theorem Plain.outside_append (h : Plain cs) (rest : List Char) :
    outside 0 (cs ++ rest) = cs ++ outside 0 rest :=
  outside_append_plain (h.not_mem (by decide)) (h.not_mem (by decide)) rest

theorem Plain.reduced_append (h : Plain cs) (rest : List Char) :
    reduced (cs ++ rest) = cs ++ reduced rest :=
  reduced_append_of_no_mark (h.not_mem (by decide)) (h.not_mem (by decide)) (h.not_mem (by decide)) rest

namespace Annotation

variable {a : Annotation}

theorem at_mem_reduced {cs : List Char} (h : cs.head?.any isAnnotationChar = false) :
    '@' ∈ reduced ('@' :: cs) := by
  rw [reduced, dropAnnotations_keep fun hboth => Bool.eq_false_iff.mp h hboth.2,
    outside_cons (by decide) (by decide), if_pos rfl]
  exact List.mem_cons_self

/-- something of an annotation that glares is left which is in no name -/
theorem Glares.mem_reduced (h : a.Glares) (rest : List Char) :
    '@' ∈ reduced (a.chars ++ rest) ∨ '(' ∈ reduced (a.chars ++ rest) := by
  obtain ⟨htight, hglares⟩ := h
  obtain ⟨c, name, hname, _⟩ := a.nameChars_eq_cons
  by_cases hspace : a.space.chars = []
  · cases hhead : a.nameChars.head?.any isAnnotationChar with
    | false =>
      refine .inl (at_mem_reduced ?_)
      rw [hname] at hhead
      rw [hspace, hname]
      exact hhead
    | true =>
      obtain ⟨g, hg⟩ : ∃ g, a.arguments = some g := by
        rcases hglares with hne | hword | hsome
        · exact absurd hspace hne
        · exact absurd (hhead.symm.trans hword) (by decide)
        · exact Option.ne_none_iff_exists'.mp hsome
      have hstuck : (a.nameChars ++ g.1.chars).dropWhile isAnnotationChar ≠ [] := by
        intro hnil
        have hall := List.dropWhile_eq_nil_iff.mp hnil
        refine htight ⟨hspace, fun d hd => hall d (List.mem_append_left _ hd), fun g' hg' => ?_⟩
        cases hg.symm.trans hg'
        refine List.eq_nil_iff_forall_not_mem.mpr fun d hd => ?_
        have hword := hall d (List.mem_append_right _ hd)
        exact absurd (hword.symm.trans (isAnnotationChar_of_isBlank (g.1.blank d hd))) (by decide)
      have hplain : Plain (a.nameChars ++ g.1.chars) := a.plain_nameChars.append g.1.plain
      have hchars : a.chars ++ rest =
          '@' :: ((a.nameChars ++ g.1.chars) ++ ('(' :: (g.2 ++ [')'] ++ rest))) := by
        rw [chars, hspace, argumentChars_of_some hg, List.nil_append]
        simp only [List.cons_append, List.append_assoc]
      have hhead' : (a.nameChars ++ g.1.chars).head?.any isAnnotationChar = true := by
        rw [hname] at hhead ⊢
        exact hhead
      refine .inr ?_
      rw [hchars, reduced, dropAnnotations_stuck hhead' hplain hstuck,
        (hplain.subset (List.dropWhile_sublist isAnnotationChar).subset).outside_append,
        dropAnnotations_keep fun hboth => absurd hboth.1 (by decide), outside_cons (by decide) (by decide), if_pos rfl]
      exact List.mem_append_right _ List.mem_cons_self
  · refine .inl (at_mem_reduced ?_)
    obtain ⟨b, space, hcons⟩ := List.exists_cons_of_ne_nil hspace
    rw [hcons]
    exact isAnnotationChar_of_isBlank (a.space.blank b (hcons ▸ List.mem_cons_self))

end Annotation

/-! ## type arguments -/

/-- no angle brackets, and nothing that would go on behind the end -/
structure Flat (cs : List Char) : Prop where
  noOpen : '<' ∉ cs
  noClose : '>' ∉ cs
  closed : Closed cs

/-- what stands between two angle brackets. Of an annotation whose arguments contain such brackets it is asked that it is
tight; else they would be counted -/
inductive Balanced : List Char → Prop
  | flat {cs : List Char} (flat : Flat cs) : Balanced cs
  | nested {cs inner rest : List Char} (flat : Flat cs) (inside : Balanced inner) (others : Balanced rest) :
      Balanced (cs ++ '<' :: (inner ++ '>' :: rest))
  | annotated {cs rest : List Char} {a : Annotation} (flat : Flat cs) (tight : a.IsTight)
      (ends : a.EndsBefore rest) (others : Balanced rest) : Balanced (cs ++ (a.chars ++ rest))

theorem outside_of_flat (hopen : '<' ∉ cs) (hclose : '>' ∉ cs) (hdepth : depth ≠ 0)
    (rest : List Char) : outside depth (cs ++ rest) = outside depth rest := by
  induction cs with
  | nil => rfl
  | cons c cs ih =>
    obtain ⟨hopen', hopenRest⟩ := List.ne_and_not_mem_of_not_mem_cons hopen
    obtain ⟨hclose', hcloseRest⟩ := List.ne_and_not_mem_of_not_mem_cons hclose
    rw [List.cons_append, outside_cons hopen'.symm hclose'.symm, if_neg hdepth, ih hopenRest hcloseRest]

theorem mem_of_mem_dropAnnotations (h : c ∈ dropAnnotations cs) : c ∈ cs := by
  induction cs using dropAnnotations.induct with
  | case1 => rwa [dropAnnotations.eq_def] at h
  | case2 d tail hat ih =>
    obtain ⟨rfl, hhead⟩ := hat
    rw [dropAnnotations_at hhead] at h
    have hsuffix := (dropArguments_suffix _).trans (List.dropWhile_suffix (l := tail) isAnnotationChar)
    exact List.mem_cons_of_mem _ (hsuffix.subset (ih h))
  | case3 d tail hat ih =>
    rw [dropAnnotations_keep hat] at h
    rcases List.mem_cons.mp h with rfl | h
    · exact List.mem_cons_self
    · exact List.mem_cons_of_mem _ (ih h)

theorem Flat.outside_dropAnnotations (h : Flat cs) (hrest : StartsApart rest) (hdepth : depth ≠ 0) :
    outside depth (dropAnnotations (cs ++ rest)) = outside depth (dropAnnotations rest) := by
  rw [dropAnnotations_append h.closed hrest]
  exact outside_of_flat (fun hmem => h.noOpen (mem_of_mem_dropAnnotations hmem))
    (fun hmem => h.noClose (mem_of_mem_dropAnnotations hmem)) hdepth _

theorem startsApart_cons (h : isAnnotationChar c = false ∧ c ≠ '(') (rest : List Char) :
    StartsApart (c :: rest) := by
  intro d hd
  cases hd
  exact h

theorem dropAnnotations_cons_of_ne (h : c ≠ '@') (rest : List Char) :
    dropAnnotations (c :: rest) = c :: dropAnnotations rest :=
  dropAnnotations_keep fun hboth => h hboth.1

theorem Annotation.EndsBefore.append {a : Annotation} {after : List Char} (h : a.EndsBefore rest)
    (hafter : StartsApart after) : a.EndsBefore (rest ++ after) := by
  intro hnone c hc
  cases rest with
  | nil => exact hafter c hc
  | cons d rest => exact h hnone c hc

theorem Balanced.outside_eq (h : Balanced cs) (hrest : StartsApart rest) (hdepth : 1 ≤ depth) :
    outside depth (dropAnnotations (cs ++ rest)) = outside depth (dropAnnotations rest) := by
  induction h generalizing rest depth with
  | flat flat => exact flat.outside_dropAnnotations hrest (by omega)
  | @nested cs inner others flat inside _ ihinside ihothers =>
    have hopen := startsApart_cons (c := '<') (by decide) (inner ++ '>' :: (others ++ rest))
    have hclose := startsApart_cons (c := '>') (by decide) (others ++ rest)
    calc outside depth (dropAnnotations (cs ++ '<' :: (inner ++ '>' :: others) ++ rest))
        = outside depth (dropAnnotations (cs ++ '<' :: (inner ++ '>' :: (others ++ rest)))) := by
          simp only [List.append_assoc, List.cons_append]
      _ = outside depth ('<' :: dropAnnotations (inner ++ '>' :: (others ++ rest))) := by
          rw [flat.outside_dropAnnotations hopen (by omega), dropAnnotations_cons_of_ne (by decide)]
      _ = outside (depth + 1) (dropAnnotations ('>' :: (others ++ rest))) := by
          rw [outside, ihinside hclose (by omega)]
      _ = outside depth (dropAnnotations (others ++ rest)) := by
          rw [dropAnnotations_cons_of_ne (by decide), outside, Int.add_sub_cancel]
      _ = outside depth (dropAnnotations rest) := ihothers hrest hdepth
  | @annotated cs others a flat tight ends _ ih =>
    have hat : StartsApart (a.chars ++ (others ++ rest)) := startsApart_cons (by decide) _
    rw [List.append_assoc, List.append_assoc, flat.outside_dropAnnotations hat (by omega),
      tight.dropAnnotations_eq (ends.append hrest), ih hrest hdepth]

theorem Balanced.reduced_eq (h : Balanced cs) (rest : List Char) :
    reduced ('<' :: (cs ++ '>' :: rest)) = reduced rest := by
  have hclose := startsApart_cons (c := '>') (by decide) rest
  rw [reduced, dropAnnotations_cons_of_ne (by decide), outside, h.outside_eq hclose (by decide),
    dropAnnotations_cons_of_ne (by decide), outside]
  rfl

end StaticPromotion.TypeName
