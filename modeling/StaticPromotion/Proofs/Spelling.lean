import StaticPromotion.Proofs.Annotations

/-!
# Spellings of a type

A type is written as the tokens of a dotted name, with annotations, type arguments, dimensions, dots for more and white space among
them. Not every spelling leads back to the name: of an annotation with white space in it something stays, a pair of brackets
goes only if nothing stands in it, and of white space inside the name only spaces go.

* `Token`                the parts of a spelling. Each carries the proof that it is well formed;
* `Spells names tokens`  the tokens spell the dotted name;
* `reduced_text`, `dropPairs_reduct`, `dropDots_unpaired`    what is left of the tokens, step by step;
* `strip_filter_eq_iff`  taking out the spaces takes out all blanks exactly if no other blank stands inside;
* `filter_finished`      the last steps lose no letter, so none can be hidden by them;
* `IsTidy`               all annotations and dimensions are tight, and white space inside the name is spaces only;
* `clean_eq_iff_tidy`    exactly the tidy spellings are read as the name.
-/

namespace StaticPromotion.TypeName

open Text

variable {cs : List Char} {c : Char} {q p : Char → Bool}

/-! ## spellings -/

inductive Token where
  | name (part : Identifier)
  | dot
  | gap (space : Gap)
  | marked (a : Annotation)
  | arguments (inside : List Char) (balanced : Balanced inside)
  | dimension (inside : Gap)
  | ellipsis

namespace Token

def chars : Token → List Char
  | .name part => part.chars
  | .dot => ['.']
  | .gap space => space.chars
  | .marked a => a.chars
  | .arguments inside _ => '<' :: (inside ++ ['>'])
  | .dimension inside => '[' :: (inside.chars ++ [']'])
  | .ellipsis => ['.', '.', '.']

/-- what belongs to the name -/
def own : Token → List Char
  | .name part => part.chars
  | .dot => ['.']
  | _ => []

/-- with the white space -/
def skeleton : Token → List Char
  | .gap space => space.chars
  | token => token.own

def EndsBefore : Token → List Char → Prop
  | .marked a, rest => a.EndsBefore rest
  | _, _ => True

def IsTight : Token → Prop
  | .marked a => a.IsTight
  | .dimension inside => inside.chars = []
  | _ => True

end Token

def text (tokens : List Token) : List Char :=
  tokens.flatMap Token.chars

theorem text_cons (token : Token) (rest : List Token) : text (token :: rest) = token.chars ++ text rest :=
  List.flatMap_cons

/-- no annotation runs into what follows it -/
def Apart : List Token → Prop
  | [] => True
  | token :: rest => token.EndsBefore (text rest) ∧ Apart rest

structure Spells (names : List String) (tokens : List Token) : Prop where
  proper : ∀ name ∈ names, name ≠ "" ∧ ∀ c ∈ name.toList, isNameChar c = true
  named : tokens.flatMap Token.own = (".".intercalate names).toList
  apart : Apart tokens

structure IsTidy (tokens : List Token) : Prop where
  tight : ∀ token ∈ tokens, token.IsTight
  spaces : ∀ c ∈ strip (tokens.flatMap Token.skeleton), isBlank c = true → c = ' '

/-! ## what is left of a spelling, step by step -/

namespace Token

def Glares : Token → Prop
  | .marked a => a.Glares
  | _ => False

/-- after annotations and type arguments are gone -/
def reduct : Token → List Char
  | .marked a => a.residue
  | .arguments _ _ => []
  | token => token.chars

/-- after empty pairs of brackets are gone as well -/
def unpaired : Token → List Char
  | .dimension inside => if inside.chars = [] then [] else '[' :: (inside.chars ++ [']'])
  | token => token.reduct

theorem plain_own (token : Token) : Plain token.own := by
  cases token with
  | name part => exact part.plain
  | dot => exact fun c hc => .inr (.inl (List.mem_singleton.mp hc))
  | _ => exact fun c hc => absurd hc List.not_mem_nil

theorem not_mem_dimension (inside : Gap) {d : Char} (hd : d ≠ '[' ∧ d ≠ ']' ∧ isBlank d = false) :
    d ∉ (Token.dimension inside).chars := by
  intro hmem
  rcases List.mem_cons.mp hmem with hopen | hmem
  · exact hd.1 hopen
  · rcases List.mem_append.mp hmem with hinside | hclose
    · exact ne_of_isBlank (inside.blank d hinside) hd.2.2 rfl
    · exact hd.2.1 (List.mem_singleton.mp hclose)

theorem reduced_chars (token : Token) (hglares : ¬ token.Glares) {rest : List Char}
    (hends : token.EndsBefore rest) : reduced (token.chars ++ rest) = token.reduct ++ reduced rest := by
  cases token with
  | name part => exact part.plain.reduced_append rest
  | dot => exact reduced_append_of_no_mark (by decide) (by decide) (by decide) rest
  | gap space => exact space.plain.reduced_append rest
  | marked a =>
    by_cases htight : a.IsTight
    · rw [reduct, a.residue_of_tight htight, List.nil_append, reduced, chars, htight.dropAnnotations_eq hends, reduced]
    · rw [reduct, chars, reduced, (a.dropAnnotations_residue htight hglares).2, a.plain_residue.outside_append, reduced]
  | arguments inside balanced =>
    rw [reduct, chars, List.nil_append, List.cons_append, List.append_assoc]
    exact balanced.reduced_eq rest
  | dimension inside =>
    exact reduced_append_of_no_mark (not_mem_dimension inside (by decide)) (not_mem_dimension inside (by decide))
      (not_mem_dimension inside (by decide)) rest
  | ellipsis => exact reduced_append_of_no_mark (by decide) (by decide) (by decide) rest

end Token

variable {tokens : List Token}

theorem reduced_text (hapart : Apart tokens) (hglares : ∀ token ∈ tokens, ¬ token.Glares) :
    reduced (text tokens) = tokens.flatMap Token.reduct := by
  induction tokens with
  | nil => rw [text, List.flatMap_nil, reduced, dropAnnotations.eq_def]; rfl
  | cons token rest ih =>
    rw [text_cons, token.reduced_chars (hglares token List.mem_cons_self) hapart.1, List.flatMap_cons,
      ih hapart.2 fun other hother => hglares other (List.mem_cons_of_mem _ hother)]

theorem mem_reduced_of_glares (hapart : Apart tokens) {glaring : Token} (hmem : glaring ∈ tokens)
    (hglares : glaring.Glares) : '@' ∈ reduced (text tokens) ∨ '(' ∈ reduced (text tokens) := by
  induction tokens with
  | nil => exact absurd hmem List.not_mem_nil
  | cons token rest ih =>
    rw [text_cons]
    by_cases hfirst : token.Glares
    · cases token with
      | marked a => exact Annotation.Glares.mem_reduced hfirst _
      | _ => exact hfirst.elim
    · have hrest : glaring ∈ rest := by
        rcases List.mem_cons.mp hmem with rfl | hrest
        · exact absurd hglares hfirst
        · exact hrest
      rw [token.reduced_chars hfirst hapart.1]
      exact (ih hapart.2 hrest).imp (List.mem_append_right _) (List.mem_append_right _)

/-! ### pairs of brackets -/

theorem dropPairs_append_of_no_open (h : '[' ∉ cs) (rest : List Char) :
    dropPairs (cs ++ rest) = cs ++ dropPairs rest := by
  induction cs with
  | nil => rfl
  | cons c cs ih =>
    obtain ⟨hfirst, hcs⟩ := List.ne_and_not_mem_of_not_mem_cons h
    rw [List.cons_append, dropPairs, ih hcs]
    · rfl
    · exact fun _ hc => absurd hc.symm hfirst

theorem dropPairs_open (h : c ≠ ']') (rest : List Char) :
    dropPairs ('[' :: c :: rest) = '[' :: dropPairs (c :: rest) := by
  rw [dropPairs]
  intro tail _ heq
  exact absurd (List.cons.inj heq).1 h

theorem Token.dropPairs_reduct (token : Token) (rest : List Char) :
    dropPairs (token.reduct ++ rest) = token.unpaired ++ dropPairs rest := by
  cases token with
  | dimension inside =>
    obtain ⟨inner, hblank⟩ := inside
    cases inner with
    | nil => rfl
    | cons b inner =>
      have hplain : Plain (b :: inner) := fun c hc => .inr (.inr (hblank c hc))
      have hb : b ≠ ']' := ne_of_isBlank (hblank b List.mem_cons_self) (by decide)
      calc dropPairs ('[' :: (b :: inner ++ [']']) ++ rest)
          = '[' :: dropPairs ((b :: inner) ++ (']' :: rest)) := by
            rw [List.cons_append, List.append_assoc]
            exact dropPairs_open hb _
        _ = '[' :: ((b :: inner) ++ ([']'] ++ dropPairs rest)) := by
            rw [dropPairs_append_of_no_open (hplain.not_mem (by decide)),
              show ']' :: rest = [']'] ++ rest from rfl, dropPairs_append_of_no_open (by decide)]
        _ = '[' :: (b :: inner ++ [']']) ++ dropPairs rest := by simp only [List.cons_append, List.append_assoc]
  | name part => exact dropPairs_append_of_no_open (part.plain.not_mem (by decide)) rest
  | gap space => exact dropPairs_append_of_no_open (space.plain.not_mem (by decide)) rest
  | marked a => exact dropPairs_append_of_no_open (a.plain_residue.not_mem (by decide)) rest
  | dot | ellipsis => exact dropPairs_append_of_no_open (by decide) rest
  | arguments => rfl

theorem dropPairs_reduct (tokens : List Token) :
    dropPairs (tokens.flatMap Token.reduct) = tokens.flatMap Token.unpaired := by
  induction tokens with
  | nil => rfl
  | cons token rest ih => rw [List.flatMap_cons, token.dropPairs_reduct, ih, List.flatMap_cons]

/-! ### dots for more -/

theorem dropDots_append_of_no_dot (h : '.' ∉ cs) (rest : List Char) :
    dropDots (cs ++ rest) = cs ++ dropDots rest := by
  induction cs with
  | nil => rfl
  | cons c cs ih =>
    obtain ⟨hfirst, hcs⟩ := List.ne_and_not_mem_of_not_mem_cons h
    rw [List.cons_append, dropDots, ih hcs]
    · rfl
    · exact fun _ hc => absurd hc.symm hfirst

theorem dropDots_dot (h : c ≠ '.') (rest : List Char) :
    dropDots ('.' :: c :: rest) = '.' :: dropDots (c :: rest) := by
  rw [dropDots]
  intro tail _ heq
  exact absurd (List.cons.inj heq).1 h

/-- of tight tokens the skeleton is left; a dot in front may wait for the end of a row of dots -/
theorem dropDots_unpaired (htight : ∀ token ∈ tokens, token.IsTight) :
    (Spaced (tokens.flatMap Token.skeleton) →
        dropDots (tokens.flatMap Token.unpaired) = tokens.flatMap Token.skeleton) ∧
      (Spaced ('.' :: tokens.flatMap Token.skeleton) →
        dropDots ('.' :: tokens.flatMap Token.unpaired) = '.' :: tokens.flatMap Token.skeleton) := by
  induction tokens with
  | nil => exact ⟨fun _ => rfl, fun _ => rfl⟩
  | cons token rest ih =>
    obtain ⟨ihrest, ihdot⟩ := ih fun other hother => htight other (List.mem_cons_of_mem _ hother)
    have hfirst := htight token List.mem_cons_self
    -- letters and blanks pass, and part a dot in front of them from what follows
    have hpass : ∀ cs : List Char, '.' ∉ cs → token.unpaired = cs → token.skeleton = cs →
        (Spaced (token.skeleton ++ rest.flatMap Token.skeleton) →
          dropDots (token.unpaired ++ rest.flatMap Token.unpaired) =
            token.skeleton ++ rest.flatMap Token.skeleton) ∧
        (Spaced ('.' :: (token.skeleton ++ rest.flatMap Token.skeleton)) →
          dropDots ('.' :: (token.unpaired ++ rest.flatMap Token.unpaired)) =
            '.' :: (token.skeleton ++ rest.flatMap Token.skeleton)) := by
      intro cs hcs hunpaired hskeleton
      rw [hunpaired, hskeleton]
      cases cs with
      | nil => exact ⟨ihrest, ihdot⟩
      | cons c cs =>
        have hdropped : Spaced (c :: cs ++ rest.flatMap Token.skeleton) →
            dropDots (c :: cs ++ rest.flatMap Token.unpaired) = c :: cs ++ rest.flatMap Token.skeleton := by
          intro hspaced
          rw [dropDots_append_of_no_dot hcs, ihrest (List.isChain_append.mp hspaced).2.1]
        refine ⟨hdropped, fun hspaced => ?_⟩
        rw [List.cons_append, dropDots_dot (List.ne_and_not_mem_of_not_mem_cons hcs).1.symm]
        exact congrArg _ (hdropped hspaced.tail)
    rw [List.flatMap_cons, List.flatMap_cons]
    cases token with
    | name part => exact hpass part.chars (fun hdot => absurd (part.proper _ hdot) (by decide)) rfl rfl
    | gap space => exact hpass space.chars (fun hdot => absurd (space.blank _ hdot) (by decide)) rfl rfl
    | marked a => exact hpass [] List.not_mem_nil (a.residue_of_tight hfirst) rfl
    | arguments => exact hpass [] List.not_mem_nil rfl rfl
    | dimension inside => exact hpass [] List.not_mem_nil (if_pos hfirst) rfl
    | dot => exact ⟨ihdot, fun hspaced => absurd ⟨rfl, rfl⟩ (List.isChain_cons_cons.mp hspaced).1⟩
    | ellipsis => exact ⟨ihrest, ihdot⟩

/-! ### blanks -/

theorem filter_dropWhile (hq : ∀ c, isBlank c = true → q c = false) (cs : List Char) :
    (cs.dropWhile isBlank).filter q = cs.filter q := by
  induction cs with
  | nil => rfl
  | cons c cs ih =>
    cases hblank : isBlank c with
    | true =>
      rw [List.dropWhile_cons_of_pos hblank, ih, List.filter_cons_of_neg (by rw [hq c hblank]; decide)]
    | false => rw [List.dropWhile_cons_of_neg (by rw [hblank]; decide)]

theorem filter_strip (hq : ∀ c, isBlank c = true → q c = false) (cs : List Char) :
    (strip cs).filter q = cs.filter q := by
  rw [strip, List.filter_reverse, filter_dropWhile hq, List.filter_reverse, List.reverse_reverse, filter_dropWhile hq]

theorem dropWhile_filter (hp : ∀ c, isBlank c = false → p c = true) (cs : List Char) :
    (cs.filter p).dropWhile isBlank = (cs.dropWhile isBlank).filter p := by
  induction cs with
  | nil => rfl
  | cons c cs ih =>
    cases hblank : isBlank c with
    | true =>
      rw [List.dropWhile_cons_of_pos hblank, ← ih, List.filter_cons]
      split
      · exact List.dropWhile_cons_of_pos hblank
      · rfl
    | false =>
      have hneg : ¬ isBlank c = true := by rw [hblank]; decide
      rw [List.dropWhile_cons_of_neg hneg, List.filter_cons_of_pos (hp c hblank), List.dropWhile_cons_of_neg hneg]

/-- a filter that takes no letters leaves the ends where they are -/
theorem strip_filter (hp : ∀ c, isBlank c = false → p c = true) (cs : List Char) :
    strip (cs.filter p) = (strip cs).filter p := by
  rw [strip, dropWhile_filter hp, ← List.filter_reverse, dropWhile_filter hp, ← List.filter_reverse, strip]

/-- spaces go and the ends are cut off; the rest is what it was exactly if all blanks in it were spaces -/
theorem strip_filter_eq_iff (cs : List Char) :
    strip (cs.filter (· != ' ')) = cs.filter (fun c => !isBlank c) ↔
      ∀ c ∈ strip cs, isBlank c = true → c = ' ' := by
  have hspace : ∀ c, isBlank c = false → (c != ' ') = true := fun c hc =>
    bne_iff_ne.mpr fun heq => ne_of_isBlank (d := c) (heq ▸ (by decide : isBlank ' ' = true)) hc heq.symm
  rw [strip_filter hspace, ← filter_strip (q := fun c => !isBlank c) (fun c hc => by rw [hc]; rfl)]
  constructor
  · intro heq c hc hblank
    by_contra hne
    have hkept : c ∈ (strip cs).filter (· != ' ') := List.mem_filter.mpr ⟨hc, bne_iff_ne.mpr hne⟩
    rw [heq] at hkept
    have hletter := (List.mem_filter.mp hkept).2
    rw [hblank] at hletter
    cases hletter
  · intro hspaces
    refine List.filter_congr fun c hc => ?_
    cases hblank : isBlank c with
    | true => rw [hspaces c hc hblank]; rfl
    | false => exact hspace c hblank

/-! ### what is never lost -/

/-- the last steps -/
def finished (cs : List Char) : List Char :=
  strip ((dropDots cs).filter (· != ' '))

theorem mem_dropPairs (h : c ∈ cs) (hopen : c ≠ '[') (hclose : c ≠ ']') : c ∈ dropPairs cs := by
  fun_induction dropPairs cs with
  | case1 rest ih =>
    refine ih ?_
    rcases List.mem_cons.mp h with hc | h
    · exact absurd hc hopen
    · rcases List.mem_cons.mp h with hc | h
      · exact absurd hc hclose
      · exact h
  | case2 d rest _ ih =>
    rcases List.mem_cons.mp h with rfl | h
    · exact List.mem_cons_self
    · exact List.mem_cons_of_mem _ (ih h)
  | case3 => exact h

theorem filter_dropDots (hq : q '.' = false) (cs : List Char) : (dropDots cs).filter q = cs.filter q := by
  have hdot : ∀ rest : List Char, ('.' :: rest).filter q = rest.filter q := fun rest =>
    List.filter_cons_of_neg (by rw [hq]; exact Bool.false_ne_true)
  fun_induction dropDots cs with
  | case1 rest ih => rw [ih, hdot, hdot, hdot]
  | case2 d rest _ ih => rw [List.filter_cons, List.filter_cons, ih]
  | case3 => rfl

theorem filter_finished (hdot : q '.' = false) (hblank : ∀ c, isBlank c = true → q c = false)
    (cs : List Char) : (finished cs).filter q = cs.filter q := by
  rw [finished, filter_strip hblank, List.filter_filter, ← filter_dropDots hdot cs]
  refine List.filter_congr fun c _ => ?_
  cases hc : q c with
  | false => rfl
  | true =>
    refine bne_iff_ne.mpr ?_
    rintro rfl
    rw [hblank ' ' (by decide)] at hc
    cases hc

theorem mem_finished (h : c ∈ cs) (hdot : c ≠ '.') (hblank : isBlank c = false) : c ∈ finished cs := by
  have hkept : c ∈ cs.filter fun d => d == c := List.mem_filter.mpr ⟨h, beq_self_eq_true c⟩
  rw [← filter_finished (q := fun d => d == c) (beq_eq_false_iff_ne.mpr hdot.symm)
    fun d hd => beq_eq_false_iff_ne.mpr (ne_of_isBlank hd hblank)] at hkept
  exact List.mem_of_mem_filter hkept

theorem cleanChars_eq (cs : List Char) : cleanChars cs = finished (dropPairs (reduced cs)) :=
  rfl

/-! ## the name -/

section
variable {f g : Token → List Char} (hle : ∀ token ∈ tokens, (f token).length ≤ (g token).length)
include hle

theorem length_flatMap_le : (tokens.flatMap f).length ≤ (tokens.flatMap g).length := by
  induction tokens with
  | nil => exact Nat.le_refl _
  | cons token rest ih =>
    have hfirst := hle token List.mem_cons_self
    have hrest := ih fun other hother => hle other (List.mem_cons_of_mem _ hother)
    rw [List.flatMap_cons, List.flatMap_cons, List.length_append, List.length_append]
    omega

/-- if none is longer and the rows are equally long, all are equally long -/
theorem length_eq_of_flatMap (heq : (tokens.flatMap f).length = (tokens.flatMap g).length) :
    ∀ token ∈ tokens, (f token).length = (g token).length := by
  induction tokens with
  | nil => exact fun token hmem => absurd hmem List.not_mem_nil
  | cons token rest ih =>
    have hlater : ∀ other ∈ rest, (f other).length ≤ (g other).length := fun other hother =>
      hle other (List.mem_cons_of_mem _ hother)
    have hfirst := hle token List.mem_cons_self
    have hrest := length_flatMap_le hlater
    rw [List.flatMap_cons, List.flatMap_cons, List.length_append, List.length_append] at heq
    intro other hother
    rcases List.mem_cons.mp hother with rfl | hother
    · omega
    · exact ih hlater (by omega) other hother

end

theorem Token.filter_skeleton (token : Token) : token.skeleton.filter (fun c => !isBlank c) = token.own := by
  cases token with
  | name part =>
    refine List.filter_eq_self.mpr fun c hc => ?_
    rw [isBlank_of_isNameChar (part.proper c hc)]
    rfl
  | dot => decide
  | gap space =>
    refine List.filter_eq_nil_iff.mpr fun c hc => ?_
    rw [space.blank c hc]
    exact Bool.false_ne_true
  | marked | arguments | dimension | ellipsis => rfl

/-- two dots that stay next to each other were so before -/
theorem spaced_of_filter (hp : p '.' = true) (h : Spaced (cs.filter p)) : Spaced cs := by
  induction cs with
  | nil => exact .nil
  | cons c rest ih =>
    have hrest : Spaced (rest.filter p) := by
      rw [List.filter_cons] at h
      split at h
      · exact h.tail
      · exact h
    cases rest with
    | nil => exact .singleton c
    | cons d rest =>
      refine .cons_cons ?_ (ih hrest)
      rintro ⟨rfl, rfl⟩
      rw [List.filter_cons_of_pos hp, List.filter_cons_of_pos hp] at h
      exact (List.isChain_cons_cons.mp h).1 ⟨rfl, rfl⟩

section
variable {names : List String} (h : Spells names tokens)
include h

theorem Spells.plain : Plain (".".intercalate names).toList := by
  rw [← h.named]
  intro c hc
  obtain ⟨token, _, htoken⟩ := List.mem_flatMap.mp hc
  exact token.plain_own c htoken

theorem Spells.filter_skeleton :
    (tokens.flatMap Token.skeleton).filter (fun c => !isBlank c) = (".".intercalate names).toList := by
  rw [← h.named, List.filter_flatMap]
  exact List.flatMap_congr fun token _ => token.filter_skeleton

theorem Spells.spaced : Spaced (tokens.flatMap Token.skeleton) := by
  refine spaced_of_filter (p := fun c => !isBlank c) (by decide) ?_
  rw [h.filter_skeleton, toList_dotted]
  refine spaced_dotted (fun cs hcs => ?_) fun cs hcs hdot => ?_
  · obtain ⟨name, hname, rfl⟩ := List.mem_map.mp hcs
    exact fun hnil => (h.proper name hname).1 (String.toList_eq_nil_iff.mp hnil)
  · obtain ⟨name, hname, rfl⟩ := List.mem_map.mp hcs
    exact absurd ((h.proper name hname).2 '.' hdot) (by decide)

/-- tidy or not, if all tokens are tight -/
theorem Spells.cleanChars_of_tight (htight : ∀ token ∈ tokens, token.IsTight) :
    cleanChars (text tokens) = strip ((tokens.flatMap Token.skeleton).filter (· != ' ')) := by
  have hglares : ∀ token ∈ tokens, ¬ token.Glares := by
    intro token hmem hglares
    cases token with
    | marked a => exact hglares.1 (htight _ hmem)
    | _ => exact hglares
  rw [cleanChars_eq, reduced_text h.apart hglares, dropPairs_reduct, finished,
    (dropDots_unpaired htight).1 h.spaced]

/-- a token that is not tight leaves something behind -/
theorem Spells.tight_of_cleanChars (hclean : cleanChars (text tokens) = (".".intercalate names).toList) :
    ∀ token ∈ tokens, token.IsTight := by
  have hlost : ∀ d ∈ dropPairs (reduced (text tokens)), isNameChar d = true ∨ d = '.' ∨ isBlank d = true := by
    intro d hd
    by_cases hdot : d = '.'
    · exact .inr (.inl hdot)
    · cases hblank : isBlank d with
      | true => exact .inr (.inr rfl)
      | false =>
        have hmem := mem_finished hd hdot hblank
        rw [← cleanChars_eq, hclean] at hmem
        exact hblank ▸ h.plain d hmem
  have hglares : ∀ token ∈ tokens, ¬ token.Glares := by
    intro token hmem hglares
    rcases mem_reduced_of_glares h.apart hmem hglares with hat | hopen
    · exact Plain.not_mem (d := '@') hlost (by decide) (mem_dropPairs hat (by decide) (by decide))
    · exact Plain.not_mem (d := '(') hlost (by decide) (mem_dropPairs hopen (by decide) (by decide))
  rw [reduced_text h.apart hglares, dropPairs_reduct] at hlost
  have hletters : (tokens.flatMap fun token => token.own.filter isNameChar) =
      tokens.flatMap fun token => token.unpaired.filter isNameChar := by
    rw [← List.filter_flatMap, ← List.filter_flatMap, h.named, ← hclean, cleanChars_eq, reduced_text h.apart hglares,
      dropPairs_reduct, filter_finished (by decide) fun c hc => Bool.eq_false_iff.mpr fun hname =>
        Bool.eq_false_iff.mp (isBlank_of_isNameChar hname) hc]
  have hle : ∀ token ∈ tokens, (token.own.filter isNameChar).length ≤ (token.unpaired.filter isNameChar).length := by
    intro token _
    cases token with
    | name part | dot => exact Nat.le_refl _
    | _ => exact Nat.zero_le _
  have hlengths := length_eq_of_flatMap (f := fun token => token.own.filter isNameChar)
    (g := fun token => token.unpaired.filter isNameChar) hle (congrArg List.length hletters)
  intro token hmem
  cases token with
  | marked a =>
    by_contra htight
    obtain ⟨c, hc, hname⟩ := a.exists_mem_residue (a.dropAnnotations_residue htight (hglares _ hmem)).1
    have hnone : (a.residue.filter isNameChar).length = 0 := (hlengths _ hmem).symm
    have hkept : c ∈ a.residue.filter isNameChar := List.mem_filter.mpr ⟨hc, hname⟩
    rw [List.eq_nil_of_length_eq_zero hnone] at hkept
    exact List.not_mem_nil hkept
  | dimension inside =>
    by_contra htight
    have hopen : '[' ∈ tokens.flatMap Token.unpaired := by
      refine List.mem_flatMap.mpr ⟨_, hmem, ?_⟩
      rw [Token.unpaired, if_neg (show ¬ inside.chars = [] from htight)]
      exact List.mem_cons_self
    exact Plain.not_mem hlost (by decide) hopen
  | _ => trivial

end

theorem clean_eq_iff_tidy {names : List String} {tokens : List Token} (h : Spells names tokens) :
    clean (String.ofList (text tokens)) = ".".intercalate names ↔ IsTidy tokens := by
  have hchars : clean (String.ofList (text tokens)) = ".".intercalate names ↔
      cleanChars (text tokens) = (".".intercalate names).toList := by
    rw [clean, String.toList_ofList]
    constructor
    · intro heq
      rw [← heq, String.toList_ofList]
    · intro heq
      rw [heq, String.ofList_toList]
  rw [hchars]
  constructor
  · intro hclean
    have htight := h.tight_of_cleanChars hclean
    refine ⟨htight, (strip_filter_eq_iff _).mp ?_⟩
    rw [h.filter_skeleton, ← h.cleanChars_of_tight htight, hclean]
  · rintro ⟨htight, hspaces⟩
    rw [h.cleanChars_of_tight htight, (strip_filter_eq_iff _).mpr hspaces, h.filter_skeleton]

/-! ## samples -/

def Gap.of (text : String) (h : text.toList.all isBlank = true := by decide) : Gap :=
  ⟨text.toList, List.all_eq_true.mp h⟩

def Identifier.of (text : String) (hne : text.toList ≠ [] := by decide)
    (h : text.toList.all isNameChar = true := by decide) : Identifier :=
  ⟨text.toList, hne, List.all_eq_true.mp h⟩

namespace Annotation

/-- a name of one part and no arguments -/
def marker (name : Identifier) : Annotation where
  space := .of ""
  first := name
  others := []
  arguments := none
  closed g hg := by cases hg

/-- with what stands between the parentheses -/
def called (name : Identifier) (inside : List Char) (h : '(' ∉ inside ∧ ')' ∉ inside := by decide) : Annotation where
  space := .of ""
  first := name
  others := []
  arguments := some (.of "", inside)
  closed g hg := by
    cases hg
    exact h

theorem isTight_marker {name : Identifier} (h : name.chars.all isAnnotationChar = true) :
    (marker name).IsTight := by
  refine ⟨rfl, fun c hc => List.all_eq_true.mp h c ?_, fun g hg => by cases hg⟩
  rwa [nameChars, marker, List.flatMap_nil, List.append_nil] at hc

theorem isTight_called {name : Identifier} {inside : List Char} (h : name.chars.all isAnnotationChar = true)
    (hinside : '(' ∉ inside ∧ ')' ∉ inside) : (called name inside hinside).IsTight := by
  refine ⟨rfl, fun c hc => List.all_eq_true.mp h c ?_, fun g hg => by cases hg; rfl⟩
  rwa [nameChars, called, List.flatMap_nil, List.append_nil] at hc

theorem endsBefore_space (a : Annotation) (rest : List Char) : a.EndsBefore (' ' :: rest) :=
  fun _ => startsApart_cons (by decide) rest

end Annotation

open Annotation

theorem flat_of_no_mark (h : '<' ∉ cs ∧ '>' ∉ cs ∧ '(' ∉ cs) : Flat cs where
  noOpen := h.1
  noClose := h.2.1
  closed before _ heq := absurd (heq ▸ List.mem_append_right before List.mem_cons_self) h.2.2

/-- the bracket in the annotation's string is not counted -/
theorem balanced_guarded : Balanced "@D(\"<\") Map<K, V>".toList := by
  have hempty : Flat [] := flat_of_no_mark (by decide)
  have hmap : Flat " Map".toList := flat_of_no_mark (by decide)
  have harguments : Flat "K, V".toList := flat_of_no_mark (by decide)
  exact .annotated (a := .called (.of "D") "\"<\"".toList) hempty (isTight_called (by decide) (by decide))
    (endsBefore_space _ _) (.nested hmap (.flat harguments) (.flat hempty))

/-- annotations, spaces in the name, nested type arguments, a dimension and dots -/
def guardedTokens : List Token :=
  [.gap (.of " "), .marked (.called (.of "A") ['x']), .gap (.of " "), .name (.of "java"), .gap (.of " "), .dot,
    .gap (.of " "), .name (.of "util"), .dot, .marked (.marker (.of "C")), .gap (.of " "), .name (.of "List"),
    .arguments _ balanced_guarded, .gap (.of "\t"), .marked (.marker (.of "E")), .gap (.of " "),
    .dimension (.of ""), .gap (.of " "), .ellipsis, .gap (.of "\n")]

theorem proper_of_all {names : List String}
    (h : names.all (fun name => name != "" && name.toList.all isNameChar) = true) :
    ∀ name ∈ names, name ≠ "" ∧ ∀ c ∈ name.toList, isNameChar c = true := by
  intro name hmem
  obtain ⟨hne, hall⟩ := Bool.and_eq_true_iff.mp (List.all_eq_true.mp h name hmem)
  exact ⟨bne_iff_ne.mp hne, List.all_eq_true.mp hall⟩

theorem guardedTokens_clean :
    Spells ["java", "util", "List"] guardedTokens ∧ IsTidy guardedTokens ∧
      String.ofList (text guardedTokens) =
        " @A(x) java . util.@C List<@D(\"<\") Map<K, V>>\t@E [] ...\n" ∧
      clean (String.ofList (text guardedTokens)) = "java.util.List" := by
  have hspells : Spells ["java", "util", "List"] guardedTokens := by
    refine ⟨proper_of_all (by decide), by decide, ?_⟩
    simp only [guardedTokens, Apart, Token.EndsBefore, true_and, and_true]
    exact ⟨endsBefore_space _ _, endsBefore_space _ _, endsBefore_space _ _⟩
  have htidy : IsTidy guardedTokens := by
    refine ⟨?_, ?_⟩
    · simp only [guardedTokens, List.forall_mem_cons, Token.IsTight, true_and]
      exact ⟨isTight_called (by decide) (by decide), isTight_marker (by decide),
        isTight_marker (by decide), rfl, fun _ h => absurd h List.not_mem_nil⟩
    · have hall : (strip (guardedTokens.flatMap Token.skeleton)).all (fun c => !isBlank c || c == ' ') = true := by
        decide +kernel
      intro c hc hblank
      have hor := List.all_eq_true.mp hall c hc
      rw [hblank] at hor
      exact beq_iff_eq.mp hor
  exact ⟨hspells, htidy, by decide, (clean_eq_iff_tidy hspells).mpr htidy⟩

/-- a tab after the dot of a name -/
def tabbedTokens : List Token :=
  [.name (.of "java"), .dot, .gap (.of "\t"), .name (.of "util"), .dot, .name (.of "List")]

/-- a space between the brackets of a dimension -/
def loosePairTokens : List Token :=
  [.name (.of "A"), .dimension (.of " ")]

/-- a space in the name of an annotation -/
def looseAnnotationTokens : List Token :=
  [.marked { Annotation.marker (.of "A") with others := [(.of " ", .of "", .of "B")] }, .gap (.of " "),
    .name (.of "X")]

/-- each of the three is a spelling of a name, and is read as something else -/
theorem untidy_spellings_misread :
    (Spells ["java", "util", "List"] tabbedTokens ∧ String.ofList (text tabbedTokens) = "java.\tutil.List" ∧
      clean "java.\tutil.List" = "java.\tutil.List") ∧
    (Spells ["A"] loosePairTokens ∧ String.ofList (text loosePairTokens) = "A[ ]" ∧ clean "A[ ]" = "A[]") ∧
    (Spells ["X"] looseAnnotationTokens ∧ String.ofList (text looseAnnotationTokens) = "@A .B X" ∧
      clean "@A .B X" = ".BX") := by
  refine ⟨⟨⟨proper_of_all (by decide), by decide, ?_⟩, by decide, by decide +kernel⟩,
    ⟨⟨proper_of_all (by decide), by decide, ?_⟩, by decide, by decide +kernel⟩,
    ⟨⟨proper_of_all (by decide), by decide, ?_⟩, by decide, by decide +kernel⟩⟩
  · simp only [tabbedTokens, Apart, Token.EndsBefore, and_self]
  · simp only [loosePairTokens, Apart, Token.EndsBefore, and_self]
  · simp only [looseAnnotationTokens, Apart, Token.EndsBefore, and_true]
    exact endsBefore_space _ _

end StaticPromotion.TypeName
