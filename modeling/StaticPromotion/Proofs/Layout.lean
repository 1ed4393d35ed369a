import Mathlib.Data.List.Nodup
import StaticPromotion.Access
import StaticPromotion.Proofs.Parts

/-!
# What each part of a method is to the walk

The walk of a method body passes over many children: types, names, the label of a statement, the keyword of a qualified
receiver. The grammar has no `this` or `super` in them, save for that keyword. Which children are evaluated and which are
passed over is said here for every construct, and what the grammar promises about the latter.

* `Node.qualifier? n r`     the class name in front of `r`, if `r` is the keyword of a qualified `this` or `super` in `n`;
* `Node.Occurs n via p r`   `r` is a child of `p`, and `via` leads down from `n` to `p` through nothing inert;
* `Node.exposed`            the nodes that such ways lead to;
* `Spot`                    what a node is to the walk: code, or a part of a declaration on the way to code;
* `Node.next σ n c`         what the child `c` of `n` is; none, if it is passed over;
* `Node.fits σ n`           what is passed over below `n` shows no receiver: the promise of the grammar;
* `Node.isRegular`          the promise for a whole tree. Declarations of classes are told apart by range and kind.
-/

namespace StaticPromotion

open Subject

namespace Node

/-! ## receivers -/

def isReceiver (n : Node) : Bool :=
  n.construct == .receiver

/-- neither code nor anything that holds code -/
def isInert (n : Node) : Bool :=
  n.construct == .inert && n.kind != "empty_statement" && n.kind != ";"

/-- the class name in front of `super`, in an access or a call -/
def superQualifier? (n r : Node) : Option Node :=
  if r ∈ n.namedBut "object" ∧ r.kind = "super" then
    (n.child? "object").filter fun object => !object.isReceiver
  else none

def qualifier? (n r : Node) : Option Node :=
  match n.construct with
  | .fieldAccess =>
    if n.child? "field" = some r ∧ r.kind = "this" then n.child? "object" else n.superQualifier? r
  | .invocation => n.superQualifier? r
  | .methodReference =>
    match n.namedChildren with
    | target :: others =>
      if r ∈ others ∧ r.kind = "super" ∧ target.isReceiver = false ∧ isThisAccess target = false then
        some target
      else none
    | [] => none
  | _ => none

theorem superQualifier?_eq_some {n r outer : Node} :
    n.superQualifier? r = some outer ↔ (r ∈ n.namedBut "object" ∧ r.kind = "super") ∧
      n.child? "object" = some outer ∧ outer.construct ≠ .receiver := by
  rw [superQualifier?, Option.ite_none_right_eq_some, Option.filter_eq_some_iff, isReceiver,
    Bool.not_eq_true', beq_eq_false_iff_ne]

/-- an access, a call or a reference through a qualified receiver -/
def qualifies (n : Node) : Bool :=
  n.children.any fun r => (n.qualifier? r).isSome

theorem qualifies_of_qualifier? {n r outer : Node} (hr : r ∈ n.children)
    (h : n.qualifier? r = some outer) : n.qualifies = true :=
  List.any_eq_true.mpr ⟨r, hr, by rw [h]; rfl⟩

/-- without a qualified receiver, no `super` follows an object that is not a receiver itself -/
theorem super_of_not_qualifies {n object : Node} (h : n.qualifies = false)
    (hconstruct : n.construct = .fieldAccess ∨ n.construct = .invocation)
    (hobject : n.child? "object" = some object) :
    object.construct = .receiver ∨ (n.namedBut "object").any (·.kind == "super") = false := by
  by_cases hreceiver : object.construct = .receiver
  · exact .inl hreceiver
  refine .inr (List.any_eq_false.mpr fun r hr hsuper => ?_)
  have hkind : r.kind = "super" := beq_iff_eq.mp hsuper
  have hqualifier : n.superQualifier? r = some object :=
    superQualifier?_eq_some.mpr ⟨⟨hr, hkind⟩, hobject, hreceiver⟩
  have hsome : n.qualifier? r = some object := by
    rcases hconstruct with hfield | hcall
    · simp only [qualifier?, hfield]
      rw [if_neg (by rw [hkind]; exact fun hthis => absurd hthis.2 (by decide)), hqualifier]
    · simp only [qualifier?, hcall, hqualifier]
  rw [qualifies_of_qualifier? (mem_of_mem_namedBut hr) hsome] at h
  cases h

theorem field_of_not_qualifies {n object field : Node} (h : n.qualifies = false)
    (hconstruct : n.construct = .fieldAccess) (hobject : n.child? "object" = some object)
    (hfield : n.child? "field" = some field) : field.kind ≠ "this" := by
  intro hthis
  have hsome : n.qualifier? field = some object := by
    simp only [qualifier?, hconstruct, hfield, hthis, and_self, if_true, hobject]
  rw [qualifies_of_qualifier? (mem_of_child? hfield) hsome] at h
  cases h

theorem reference_of_not_qualifies {n target : Node} {others : List Node} (h : n.qualifies = false)
    (hconstruct : n.construct = .methodReference) (hparts : n.namedChildren = target :: others) :
    target.construct = .receiver ∨ isThisAccess target = true ∨
      others.any (·.kind == "super") = false := by
  by_cases hreceiver : target.construct = .receiver
  · exact .inl hreceiver
  cases hthis : isThisAccess target with
  | true => exact .inr (.inl rfl)
  | false =>
    refine .inr (.inr (List.any_eq_false.mpr fun r hr hsuper => ?_))
    have hsome : n.qualifier? r = some target := by
      simp only [qualifier?, hconstruct, hparts]
      exact if_pos ⟨hr, beq_iff_eq.mp hsuper, beq_eq_false_iff_ne.mpr hreceiver, hthis⟩
    have hmem : r ∈ n.namedChildren := hparts ▸ List.mem_cons_of_mem _ hr
    rw [qualifies_of_qualifier? (mem_of_mem_namedChildren hmem) hsome] at h
    cases h

theorem isInert_of_isReceiver {r : Node} (h : r.isReceiver = true) : r.isInert = false := by
  rw [isInert, beq_iff_eq.mp h]
  rfl

/-! ## ways down -/

inductive Occurs : Node → List Node → Node → Node → Prop
  | here {n r : Node} (live : n.isInert = false) (hr : r ∈ n.children) : Occurs n [n] n r
  | deeper {n c p r : Node} {via : List Node} (live : n.isInert = false) (hc : c ∈ n.children)
      (rest : Occurs c via p r) : Occurs n (n :: via) p r

mutual

def exposed : Node → List Node
  | n@⟨_, _, _, _, _, _, children⟩ => if n.isInert then [] else n :: exposedAll children

def exposedAll : List Node → List Node
  | [] => []
  | c :: rest => exposed c ++ exposedAll rest

end

theorem exposedAll_eq_flatMap (cs : List Node) : exposedAll cs = cs.flatMap exposed := by
  induction cs with
  | nil => rfl
  | cons c rest ih => rw [exposedAll, ih, List.flatMap_cons]

theorem exposed_eq {n : Node} (live : n.isInert = false) : n.exposed = n :: n.children.flatMap exposed := by
  cases n
  rw [exposed, live, ← exposedAll_eq_flatMap]
  rfl

namespace Occurs

variable {n p r : Node} {via : List Node}

theorem mem_exposed (h : n.Occurs via p r) : p ∈ n.exposed := by
  induction h with
  | here live _ =>
    rw [exposed_eq live]
    exact List.mem_cons_self
  | deeper live hc _ ih =>
    rw [exposed_eq live]
    exact List.mem_cons_of_mem _ (List.mem_flatMap.mpr ⟨_, hc, ih⟩)

theorem mem_children (h : n.Occurs via p r) : r ∈ p.children := by
  induction h with
  | here _ hr => exact hr
  | deeper _ _ _ ih => exact ih

theorem receiver_mem_exposed (h : n.Occurs via p r) (hr : r.isReceiver = true) : r ∈ n.exposed := by
  induction h with
  | here live hmem =>
    rw [exposed_eq live]
    refine List.mem_cons_of_mem _ (List.mem_flatMap.mpr ⟨_, hmem, ?_⟩)
    rw [exposed_eq (isInert_of_isReceiver hr)]
    exact List.mem_cons_self
  | deeper live hc _ ih =>
    rw [exposed_eq live]
    exact List.mem_cons_of_mem _ (List.mem_flatMap.mpr ⟨_, hc, ih hr⟩)

theorem via_eq (h : n.Occurs via p r) : ∃ rest, via = n :: rest := by
  cases h with
  | here => exact ⟨[], rfl⟩
  | deeper => exact ⟨_, rfl⟩

theorem children_ne_nil (h : n.Occurs via p r) : n.children ≠ [] := by
  cases h with
  | here _ hr => exact List.ne_nil_of_mem hr
  | deeper _ hc _ => exact List.ne_nil_of_mem hc

end Occurs

end Node

/-! ## spots -/

inductive Spot where
  | code
  /-- the body of a constructor, where the call of another one may stand -/
  | constructorBody
  /-- the call of another constructor -/
  | constructorCall
  | declarator
  /-- the resources of a `try`, and one of them -/
  | resources
  | resource
  /-- the body of a class, the part of it after the constants, and a member -/
  | body
  | members
  | member
deriving DecidableEq

/-- on the way from a class to the code in it -/
def Spot.isDeclaration : Spot → Bool
  | .body | .members | .member => true
  | _ => false

namespace Node

variable {σ : Spot} {n c : Node} {f : String}

/-- whether `c` is the child in one of these fields -/
def isIn (n c : Node) (fields : List String) : Bool :=
  fields.any fun f => decide (n.child? f = some c)

/-- the only class body of a creation -/
def isOnlyBody (n c : Node) : Bool :=
  decide (n.namedChildren.filter (·.kind == "class_body") = [c])

/-- the target of a reference to a constructor is a type, and a bare identifier is looked up -/
def referenceEvaluates (n c : Node) : Bool :=
  decide (n.namedChildren.head? = some c) && !n.qualifies && !isTypeKind c.kind && !c.isIdentifier &&
    !n.children.any (·.kind == "new")

/-- what a child of evaluated code is -/
def codePart (n c : Node) : Option Spot :=
  let codeIf (condition : Bool) := if condition then some Spot.code else none
  match n.construct with
  | .block | .forLoop | .caseGroup | .caseRule | .tryStatement | .transparent => some .code
  | .localVariables => if c ∈ n.childrenAt "declarator" then some .declarator else none
  | .classDeclaration _ => if n.isIn c ["body"] then some .body else none
  | .conditional => codeIf (n.isIn c ["condition", "consequence", "alternative"])
  | .whileLoop => codeIf (n.isIn c ["condition", "body"])
  | .binary =>
    codeIf (!(["&&", "||"].contains (n.childKind "operator")) || n.isIn c ["left", "right"])
  | .forEach => codeIf (n.isIn c ["value", "body"])
  | .catchClause | .lambda => codeIf (n.isIn c ["body"])
  | .tryResources =>
    if n.isIn c ["resources"] then some .resources
    else codeIf (n.isIn c ["body"] || c.kind == "catch_clause" || c.kind == "finally_clause")
  | .caseLabel => codeIf (!isPattern c.kind && !c.isIdentifier)
  | .instanceTest => codeIf (n.isIn c ["left"])
  | .labeled => codeIf (!c.isIdentifier)
  | .creation =>
    if isTypeKind c.kind then none
    else if c.kind == "class_body" then if n.isOnlyBody c then some .body else none
    else some .code
  | .fieldAccess => codeIf (n.isIn c ["object"] && !n.qualifies)
  | .invocation => codeIf (n.isIn c ["arguments"] || (n.isIn c ["object"] && !n.qualifies))
  | .methodReference => codeIf (n.referenceEvaluates c)
  | .identifier | .receiver | .constructorCall | .inert | .unknown => none

/-- a member by its kind; blocks are code themselves -/
def memberSpot (c : Node) : Option Spot :=
  match Table.MemberKind.ofKind c.kind with
  | .other => none
  | .block => some .code
  | _ => some .member

/-- what a child of a member is -/
def memberPart (n c : Node) : Option Spot :=
  match Table.MemberKind.ofKind n.kind with
  | .field => if c ∈ n.childrenAt "declarator" then some .declarator else none
  | .method =>
    if n.isIn c ["body"] then
      if c.kind == "constructor_body" then some .constructorBody else some .code
    else none
  | .staticBlock => some .code
  | .nested _ => if n.isIn c ["body"] then some .body else none
  | .constant =>
    if n.isIn c ["arguments"] then some .code
    else if n.isIn c ["body"] then some .body
    else none
  | .block | .other => none

def next (σ : Spot) (n c : Node) : Option Spot :=
  if !c.named then none
  else
    match σ with
    | .code => n.codePart c
    | .constructorBody =>
      if c.construct == .constructorCall then some .constructorCall else some .code
    | .constructorCall => if isTypeKind c.kind then none else some .code
    | .declarator => if n.isIn c ["value"] then some .code else none
    | .resources => some .resource
    | .resource => if (n.child? "name").isNone || n.isIn c ["value"] then some .code else none
    | .body => if c.kind == "enum_body_declarations" then some .members else c.memberSpot
    | .members => c.memberSpot
    | .member => n.memberPart c

theorem named_of_next {σ' : Spot} (h : n.next σ c = some σ') : c.named = true := by
  cases hnamed : c.named with
  | true => rfl
  | false =>
    unfold next at h
    rw [hnamed] at h
    cases h

/-! ## what the grammar promises -/

/-- A child that is passed over shows no receiver, unless it is the keyword of a qualified one. Among the members of a class
only qualified receivers matter: the others denote its instances. -/
def spares (σ : Spot) (n c : Node) : Bool :=
  if (n.qualifier? c).isSome then c.children.isEmpty
  else if σ.isDeclaration then c.exposed.all fun p => !p.qualifies
  else c.exposed.all fun r => !r.isReceiver

section
variable {σ : Spot} {n c : Node} (h : n.spares σ c = true)
include h

theorem keyword_of_spares {outer : Node} (hkeyword : n.qualifier? c = some outer) : c.children = [] := by
  rw [spares, hkeyword, Option.isSome_some, if_pos rfl] at h
  exact List.isEmpty_iff.mp h

theorem no_qualified_of_spares (hkeyword : n.qualifier? c = none) (hσ : σ.isDeclaration = true) :
    ∀ p ∈ c.exposed, p.qualifies = false := by
  rw [spares, hkeyword, Option.isSome_none, if_neg Bool.false_ne_true, if_pos hσ,
    List.all_eq_true] at h
  intro p hp
  exact Bool.not_eq_true' _ ▸ h p hp

theorem no_receiver_of_spares (hkeyword : n.qualifier? c = none) (hσ : σ.isDeclaration = false) :
    ∀ r ∈ c.exposed, r.isReceiver = false := by
  rw [spares, hkeyword, Option.isSome_none, if_neg Bool.false_ne_true,
    if_neg (Bool.eq_false_iff.mp hσ), List.all_eq_true] at h
  intro r hr
  exact Bool.not_eq_true' _ ▸ h r hr

end

mutual

def fits (σ : Spot) : Node → Bool
  | n@⟨_, _, _, _, _, _, children⟩ =>
    n.isInert || ((σ == .code || (!n.isReceiver && !n.qualifies)) && fitsAll σ n children)

def fitsAll (σ : Spot) (n : Node) : List Node → Bool
  | [] => true
  | c :: rest =>
    (match n.next σ c with
      | some σ' => fits σ' c
      | none => n.spares σ c) && fitsAll σ n rest

end

theorem fits_eq (live : n.isInert = false) :
    n.fits σ = ((σ == .code || (!n.isReceiver && !n.qualifies)) && fitsAll σ n n.children) := by
  cases n
  rw [fits, live, Bool.false_or]

theorem of_fitsAll {cs : List Node} (h : fitsAll σ n cs = true) (hc : c ∈ cs) :
    (∀ σ', n.next σ c = some σ' → c.fits σ' = true) ∧ (n.next σ c = none → n.spares σ c = true) := by
  induction cs with
  | nil => cases hc
  | cons d rest ih =>
    rw [fitsAll, Bool.and_eq_true] at h
    rcases List.mem_cons.mp hc with rfl | hc
    · cases hnext : n.next σ c with
      | some σ' =>
        rw [hnext] at h
        refine ⟨fun σ'' hσ => ?_, nofun⟩
        cases hσ
        exact h.1
      | none =>
        rw [hnext] at h
        exact ⟨nofun, fun _ => h.1⟩
    · exact ih h.2 hc

section
variable {σ : Spot} {n : Node} (h : n.fits σ = true) (live : n.isInert = false)
include h live

/-- only code is a receiver or holds a qualified one -/
theorem fits_shape (hσ : σ ≠ .code) : n.isReceiver = false ∧ n.qualifies = false := by
  rw [fits_eq live, Bool.and_eq_true, beq_eq_false_iff_ne.mpr hσ, Bool.false_or,
    Bool.and_eq_true, Bool.not_eq_true', Bool.not_eq_true'] at h
  exact h.1

theorem fits_next {c : Node} {σ' : Spot} (hc : c ∈ n.children) (hnext : n.next σ c = some σ') :
    c.fits σ' = true := by
  rw [fits_eq live, Bool.and_eq_true] at h
  exact (of_fitsAll h.2 hc).1 σ' hnext

theorem fits_spares {c : Node} (hc : c ∈ n.children) (hnext : n.next σ c = none) : n.spares σ c = true := by
  rw [fits_eq live, Bool.and_eq_true] at h
  exact (of_fitsAll h.2 hc).2 hnext

end

/-- the body of a method as the grammar has it -/
def isRegularMethod (n : Node) : Bool :=
  n.kind != "method_declaration" ||
    (n.child? "body").all fun body => body.named && body.fits .code

/-- what a class can be declared by -/
def isClassShaped (n : Node) : Bool :=
  (ClassKind.ofKind? n.kind).isSome || n.kind == "object_creation_expression" ||
    n.kind == "enum_constant"

theorem isClassShaped_of_construct
    (h : n.construct = .creation ∨ ∃ flavour, n.construct = .classDeclaration flavour) :
    n.isClassShaped = true := by
  rw [isClassShaped]
  rw [construct] at h
  generalize n.kind = kind at h ⊢
  unfold Construct.ofKind at h
  split at h
  · rename_i hspecial
    unfold Construct.ofSpecial? at hspecial
    split at hspecial <;> cases hspecial <;> simp at h ⊢
  · rename_i hflavour
    rw [hflavour]
    rfl
  · split at h
    · simp at h
    · split at h <;> simp at h

/-- a tree as the grammar has it -/
def isRegular (root : Node) : Bool :=
  root.preorder.all isRegularMethod &&
    decide ((root.preorder.filter isClassShaped).map key).Nodup

/-- no two nodes that declare classes have one key -/
def HasDistinctKeys (root : Node) : Prop :=
  ((root.preorder.filter isClassShaped).map key).Nodup
deriving Decidable

theorem distinct_of_isRegular {root : Node} (h : root.isRegular = true) : root.HasDistinctKeys := by
  rw [isRegular, Bool.and_eq_true, decide_eq_true_eq] at h
  exact h.2

theorem eq_of_key_eq {root a b : Node} (hkeys : root.HasDistinctKeys) (ha : a ∈ root.preorder)
    (hb : b ∈ root.preorder) (hshaped : a.isClassShaped = true) (hkey : a.key = b.key) : a = b := by
  have hkind : a.kind = b.kind := congrArg (·.2.2) hkey
  have hb' : b.isClassShaped = true := by
    rw [isClassShaped, ← hkind]
    exact hshaped
  exact List.inj_on_of_nodup_map hkeys (List.mem_filter.mpr ⟨ha, hshaped⟩)
    (List.mem_filter.mpr ⟨hb, hb'⟩) hkey

/-! ## parts and plans -/

theorem isIn_iff {fields : List String} : n.isIn c fields = true ↔ ∃ f ∈ fields, n.child? f = some c := by
  simp only [isIn, List.any_eq_true, decide_eq_true_eq]

theorem isIn_singleton : n.isIn c [f] = true ↔ n.child? f = some c := by
  simp only [isIn_iff, List.mem_singleton, exists_eq_left]

theorem codePart_cases (h : n.codePart c = some σ) : σ = .code ∨
      (σ = .declarator ∧ n.construct = .localVariables ∧ c ∈ n.childrenAt "declarator") ∨
      (σ = .resources ∧ n.construct = .tryResources ∧ n.child? "resources" = some c) ∨
      (σ = .body ∧ (((∃ kind, n.construct = .classDeclaration kind) ∧ n.child? "body" = some c) ∨
        (n.construct = .creation ∧ c.kind = "class_body" ∧ n.isOnlyBody c = true))) := by
  unfold codePart at h
  cases hconstruct : n.construct <;> simp only [hconstruct] at h
  case localVariables =>
    rw [Option.ite_none_right_eq_some] at h
    obtain ⟨hmem, hσ⟩ := h
    cases hσ
    exact .inr (.inl ⟨rfl, rfl, hmem⟩)
  case classDeclaration kind =>
    rw [Option.ite_none_right_eq_some] at h
    obtain ⟨hbody, hσ⟩ := h
    cases hσ
    exact .inr (.inr (.inr ⟨rfl, .inl ⟨⟨kind, rfl⟩, isIn_singleton.mp hbody⟩⟩))
  case tryResources =>
    split at h
    · rename_i hresources
      cases h
      exact .inr (.inr (.inl ⟨rfl, rfl, isIn_singleton.mp hresources⟩))
    · rw [Option.ite_none_right_eq_some] at h
      cases h.2
      exact .inl rfl
  case creation =>
    split at h
    · cases h
    split at h
    · rename_i hkind
      rw [Option.ite_none_right_eq_some] at h
      obtain ⟨honly, hσ⟩ := h
      cases hσ
      exact .inr (.inr (.inr ⟨rfl, .inr ⟨rfl, beq_iff_eq.mp hkind, honly⟩⟩))
    · cases h
      exact .inl rfl
  case block | forLoop | caseGroup | caseRule | tryStatement | transparent =>
    cases h
    exact .inl rfl
  case identifier | receiver | constructorCall | inert | unknown =>
    cases h
  all_goals
    rw [Option.ite_none_right_eq_some] at h
    cases h.2
    exact .inl rfl

theorem visit_mem_visitAll {parts : List Node} (h : c ∈ parts) (place : Place) :
    .visit c place ∈ visitAll place parts :=
  List.mem_map.mpr ⟨c, h, rfl⟩

theorem visit_mem_visitStatements {parts : List Node} (h : c ∈ parts) :
    ∃ place, .visit c place ∈ visitStatements parts :=
  ⟨_, List.mem_map.mpr ⟨c, h, rfl⟩⟩

theorem visit_mem_visitField (h : n.child? f = some c) (place : Place) :
    .visit c place ∈ n.visitField f place := by
  rw [visitField, h]
  exact List.mem_singleton_self _

theorem visit_mem_two {g : String} (h : n.isIn c [f, g] = true) (p q : Place) :
    ∃ place, .visit c place ∈ n.visitField f p ++ n.visitField g q := by
  obtain ⟨f', hf, hchild⟩ := isIn_iff.mp h
  rcases List.mem_cons.mp hf with rfl | hf
  · exact ⟨p, List.mem_append_left _ (visit_mem_visitField hchild p)⟩
  · cases List.mem_singleton.mp hf
    exact ⟨q, List.mem_append_right _ (visit_mem_visitField hchild q)⟩

theorem visit_mem_plan (hc : c ∈ n.namedChildren) (h : n.codePart c = some .code) :
    ∃ place, .visit c place ∈ n.plan := by
  have hall : ∃ place, .visit c place ∈ visitAll .here n.namedChildren :=
    ⟨_, visit_mem_visitAll hc _⟩
  have hstatements := visit_mem_visitStatements hc
  unfold codePart at h
  unfold plan
  generalize n.construct = construct at h ⊢
  cases construct <;> dsimp only at h ⊢
  case block | caseGroup =>
    exact hstatements.imp fun _ => List.mem_cons_of_mem _
  case caseRule =>
    exact ⟨_, List.mem_cons_of_mem _ (visit_mem_visitAll hc _)⟩
  case tryStatement | transparent | fieldAccess | invocation | methodReference =>
    exact hall
  case forLoop =>
    rcases find?_or_mem_eraseP (p := inField "body") (mem_of_mem_namedChildren hc) with hbody | hrest
    · exact ⟨_, List.mem_cons_of_mem _ (List.mem_append_right _ (visit_mem_visitField hbody _))⟩
    · have hbut : c ∈ n.namedBut "body" :=
        List.mem_filter.mpr ⟨hrest, (List.mem_filter.mp hc).2⟩
      exact (visit_mem_visitStatements hbut).imp fun _ hstep =>
        List.mem_cons_of_mem _ (List.mem_append_left _ hstep)
  case conditional =>
    rw [Option.ite_none_right_eq_some] at h
    obtain ⟨f, hf, hchild⟩ := isIn_iff.mp h.1
    rcases List.mem_cons.mp hf with rfl | hf
    · exact ⟨_, List.mem_append_left _ (List.mem_append_left _ (visit_mem_visitField hchild _))⟩
    · rw [List.append_assoc]
      obtain ⟨place, hstep⟩ := visit_mem_two (isIn_iff.mpr ⟨f, hf, hchild⟩)
        (branch .here (n.child? "condition") true) (branch .here (n.child? "condition") false)
      exact ⟨place, List.mem_append_right _ hstep⟩
  case whileLoop =>
    rw [Option.ite_none_right_eq_some] at h
    exact visit_mem_two h.1 _ _
  case binary =>
    rw [Option.ite_none_right_eq_some, Bool.or_eq_true] at h
    split
    · rename_i hoperator
      rw [hoperator] at h
      exact visit_mem_two (h.1.resolve_left (by decide)) _ _
    · rename_i hoperator
      rw [hoperator] at h
      exact visit_mem_two (h.1.resolve_left (by decide)) _ _
    · exact hall
  case forEach =>
    rw [Option.ite_none_right_eq_some] at h
    obtain ⟨place, hstep⟩ := visit_mem_two h.1 (.fresh .here Scopes.blockLabel []) .inner
    refine ⟨place, ?_⟩
    rcases List.mem_append.mp hstep with hvalue | hbody
    · exact List.mem_append_left _ hvalue
    · exact List.mem_append_right _ (List.mem_cons_of_mem _ hbody)
  case catchClause | lambda =>
    rw [Option.ite_none_right_eq_some] at h
    exact ⟨_, List.mem_cons_of_mem _ (visit_mem_visitField (isIn_singleton.mp h.1) _)⟩
  case tryResources =>
    split at h
    · cases h
    simp only [Option.ite_none_right_eq_some, Bool.or_eq_true, or_assoc] at h
    rcases h.1 with hbody | hclause
    · exact ⟨_, List.mem_cons_of_mem _ (List.mem_append_left _
        (List.mem_append_right _ (visit_mem_visitField (isIn_singleton.mp hbody) _)))⟩
    · refine ⟨_, List.mem_cons_of_mem _ (List.mem_append_right _ (visit_mem_visitAll ?_ _))⟩
      exact List.mem_filter.mpr ⟨hc, Bool.or_eq_true _ _ ▸ hclause⟩
  case caseLabel =>
    rw [Option.ite_none_right_eq_some] at h
    exact ⟨_, List.mem_append_right _ (visit_mem_visitAll (List.mem_filter.mpr ⟨hc, h.1⟩) _)⟩
  case instanceTest =>
    rw [Option.ite_none_right_eq_some] at h
    exact ⟨_, visit_mem_visitField (isIn_singleton.mp h.1) _⟩
  case labeled =>
    rw [Option.ite_none_right_eq_some] at h
    exact ⟨_, visit_mem_visitAll (List.mem_filter.mpr ⟨hc, h.1⟩) _⟩
  case creation =>
    split at h
    · cases h
    split at h
    · split at h <;> cases h
    rename_i htype hbody
    refine ⟨.here, List.mem_map.mpr ⟨c, List.mem_filter.mpr ⟨hc, by simpa using htype⟩, ?_⟩⟩
    rw [if_neg hbody]
  case localVariables | classDeclaration =>
    split at h <;> cases h
  case identifier | receiver | constructorCall | inert | unknown =>
    cases h

theorem visit_value_mem_plan {d value : Node} (hconstruct : n.construct = .localVariables)
    (hd : d ∈ n.childrenAt "declarator") (hvalue : d.child? "value" = some value) :
    ∃ place, .visit value place ∈ n.plan := by
  simp only [plan, hconstruct]
  exact ⟨_, List.mem_flatMap.mpr ⟨d, hd, List.mem_append_right _ (visit_mem_visitField hvalue _)⟩⟩

theorem resourceSteps_subset_plan {list resource : Node} (hconstruct : n.construct = .tryResources)
    (hlist : n.child? "resources" = some list) (hresource : resource ∈ list.namedChildren) :
    resource.resourceSteps ⊆ n.plan := by
  intro step hstep
  simp only [plan, hconstruct, hlist, Option.map_some, Option.getD_some]
  refine List.mem_cons_of_mem _ (List.mem_append_left _ (List.mem_append_left _ ?_))
  exact List.mem_flatMap.mpr ⟨resource, hresource, hstep⟩

theorem visit_mem_resourceSteps {resource : Node} (hc : c ∈ resource.namedChildren)
    (h : ((resource.child? "name").isNone || resource.isIn c ["value"]) = true) :
    ∃ place, .visit c place ∈ resource.resourceSteps := by
  unfold resourceSteps
  cases hname : resource.child? "name" with
  | some name =>
    rw [hname, Option.isNone_some, Bool.false_or] at h
    exact ⟨_, List.mem_cons_of_mem _ (visit_mem_visitField (isIn_singleton.mp h) _)⟩
  | none => exact ⟨_, visit_mem_visitAll hc _⟩

end Node

end StaticPromotion
