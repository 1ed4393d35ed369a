import StaticPromotion.Proofs.Coverage
import StaticPromotion.Proofs.Indexed
import StaticPromotion.Proofs.Layout
import StaticPromotion.Proofs.Visits

/-!
# No receiver survives in a method that can become static

If the inspection of a method finds nothing, then it has dealt with every `this` and `super` below the body: it goes from node
to node as `Node.next` says, and what it passes over shows none.

* `Table.Covers own σ n`    what the inspection has done about a node at the spot `σ`;
* `Table.Covers.step`       a node that is covered covers its parts, one case per spot. The method's own code is left only at
                            the body of a class (`Table.DeclaresBody`);
* `Table.Covers.receiver`   so every way down to a receiver ends well, by induction on the way;
* `Table.receivers_stay_inside`   the receivers below the body of a method. Of a qualified one the class is declared within the
                            method, and any other stands in the body of a class that is declared there.
-/

namespace StaticPromotion

open Subject

namespace Table

variable {t : Table} {source : SourceUnit} {scopes s' : Scopes} {m : MethodId}
  {edges : List MethodId} {own : Bool} {n c : Node} {k : ClassId} {body : Node} {σ : Spot}

/-! ## the keyword of a qualified receiver -/

section
variable (clear : t.classify scopes m = .ok (.clear edges, s'))
  (hforeign : t.declaredWithin m.owner m = false) (hnamed : n.named = true)
include clear hforeign hnamed

theorem Handles.own_eq_false (h : t.Handles scopes m own n) (hreceiver : n.isReceiver = true) :
    own = false := by
  have hconstruct : n.construct = .receiver := beq_iff_eq.mp hreceiver
  cases h with
  | seen hsees =>
    cases own with
    | false => rfl
    | true => exact absurd hconstruct (hsees.not_receiver clear hnamed hforeign rfl)
  | receiver _ hown => exact hown
  | thisAccess hthis =>
    rw [construct_of_isThisAccess hthis] at hconstruct
    cases hconstruct

theorem Handles.qualified (h : t.Handles scopes m own n) {r outer : Node}
    (hqualifier : n.qualifier? r = some outer) : t.ResolvesInside scopes m n outer := by
  cases h with
  | receiver hconstruct =>
    simp only [Node.qualifier?, hconstruct] at hqualifier
    cases hqualifier
  | thisAccess hthis hobject hresolves =>
    simp only [Node.qualifier?, construct_of_isThisAccess hthis] at hqualifier
    have houter : n.child? "object" = some outer := by
      split at hqualifier
      · exact hqualifier
      · exact (Node.superQualifier?_eq_some.mp hqualifier).2.1
    rw [hobject] at houter
    cases houter
    exact hresolves
  | seen hsees =>
    cases hconstruct : n.construct with
    | fieldAccess =>
      simp only [Node.qualifier?, hconstruct] at hqualifier
      obtain ⟨object, field, hobject, hfield, hthis, hother⟩ :=
        hsees.fieldAccess clear hnamed hforeign hconstruct
      split at hqualifier
      · rename_i hkeyword
        rw [hobject] at hqualifier
        rw [hfield] at hkeyword
        cases hqualifier
        cases hkeyword.1
        exact hthis hkeyword.2
      · obtain ⟨⟨hmem, hsuper⟩, houter, hreceiver⟩ := Node.superQualifier?_eq_some.mp hqualifier
        rw [hobject] at houter
        cases houter
        by_cases hkind : field.kind = "this"
        · exact hthis hkind
        · exact (hother hkind).superOf hreceiver
            (List.any_eq_true.mpr ⟨r, hmem, beq_iff_eq.mpr hsuper⟩)
    | invocation =>
      simp only [Node.qualifier?, hconstruct] at hqualifier
      obtain ⟨⟨hmem, hsuper⟩, houter, hreceiver⟩ := Node.superQualifier?_eq_some.mp hqualifier
      exact ((hsees.invocation clear hnamed hforeign hconstruct).1 outer houter).superOf hreceiver
        (List.any_eq_true.mpr ⟨r, hmem, beq_iff_eq.mpr hsuper⟩)
    | methodReference =>
      obtain ⟨target, others, hparts, hresolves, _⟩ :=
        hsees.methodReference clear hnamed hforeign hconstruct
      simp only [Node.qualifier?, hconstruct, hparts, Option.ite_none_right_eq_some] at hqualifier
      obtain ⟨⟨hmem, hsuper, hreceiver, hthis⟩, houter⟩ := hqualifier
      cases houter
      exact hresolves (beq_eq_false_iff_ne.mp hreceiver) hthis
        (List.any_eq_true.mpr ⟨r, hmem, beq_iff_eq.mpr hsuper⟩)
    | _ =>
      simp only [Node.qualifier?, hconstruct] at hqualifier
      cases hqualifier

theorem Sees.handles_part (h : t.Sees scopes m own n) (hc : c ∈ n.namedChildren)
    (hpart : n.codePart c = some .code) : t.Handles scopes m own c := by
  by_cases hplanned : n.construct.isPlanned = true
  · obtain ⟨place, hstep⟩ := Node.visit_mem_plan hc hpart
    exact .seen (h.visit clear hnamed hplanned hstep)
  cases hconstruct : n.construct with
  | fieldAccess =>
    simp only [Node.codePart, hconstruct, Option.ite_none_right_eq_some, Bool.and_eq_true,
      Bool.not_eq_true', Node.isIn_singleton] at hpart
    obtain ⟨⟨hobject, hqualifies⟩, _⟩ := hpart
    obtain ⟨object, field, hobject', hfield, _, hother⟩ :=
      h.fieldAccess clear hnamed hforeign hconstruct
    rw [hobject] at hobject'
    cases hobject'
    exact (hother (Node.field_of_not_qualifies hqualifies hconstruct hobject hfield)).handles
      (Node.super_of_not_qualifies hqualifies (.inl hconstruct) hobject)
  | invocation =>
    simp only [Node.codePart, hconstruct, Option.ite_none_right_eq_some, Bool.or_eq_true,
      Bool.and_eq_true, Bool.not_eq_true', Node.isIn_singleton] at hpart
    obtain ⟨hobjects, harguments⟩ := h.invocation clear hnamed hforeign hconstruct
    rcases hpart.1 with hargument | ⟨hobject, hqualifies⟩
    · exact .seen (harguments c hargument)
    · exact (hobjects c hobject).handles
        (Node.super_of_not_qualifies hqualifies (.inr hconstruct) hobject)
  | methodReference =>
    simp only [Node.codePart, hconstruct, Option.ite_none_right_eq_some, Node.referenceEvaluates,
      Bool.and_eq_true, Bool.not_eq_true', decide_eq_true_eq] at hpart
    obtain ⟨⟨⟨⟨⟨hhead, hqualifies⟩, htype⟩, hidentifier⟩, hnew⟩, _⟩ := hpart
    obtain ⟨target, others, hparts, _, hhandles⟩ :=
      h.methodReference clear hnamed hforeign hconstruct
    rw [hparts] at hhead
    cases hhead
    refine hhandles ((Node.reference_of_not_qualifies hqualifies hconstruct hparts).imp id ?_)
    exact Or.imp id fun hsuper => ⟨hsuper, htype, hidentifier, hnew⟩
  | creation =>
    simp only [Node.codePart, hconstruct] at hpart
    split at hpart
    · cases hpart
    split at hpart
    · split at hpart <;> cases hpart
    rename_i htype hbody
    exact h.creationPart clear hnamed hforeign hconstruct hc (Bool.eq_false_iff.mpr htype)
      (mt beq_iff_eq.mpr hbody)
  | identifier | receiver | constructorCall | inert | unknown =>
    simp only [Node.codePart, hconstruct] at hpart
    cases hpart
  | _ =>
    rw [hconstruct] at hplanned
    exact absurd rfl hplanned

end

/-! ## spots that the inspection covers -/

/-- what the inspection has done about a node, by its spot; `own` tells the method's own code -/
def Covers (t : Table) (scopes : Scopes) (m : MethodId) (own : Bool) : Spot → Node → Prop
  | .code, n => t.Handles scopes m own n
  | .constructorBody, n => own = false ∧ t.Sees scopes m false n ∧ n.construct = .block
  | .constructorCall, n => own = false ∧ t.Sees scopes m false n ∧ n.construct = .constructorCall
  | .declarator, n => ∀ value, n.child? "value" = some value → t.Sees scopes m own value
  | .resources, n => ∀ resource ∈ n.namedChildren, ∀ part place,
      .visit part place ∈ resource.resourceSteps → t.Sees scopes m own part
  | .resource, n => ∀ part place, .visit part place ∈ n.resourceSteps → t.Sees scopes m own part
  | .body, n => own = false ∧ ∃ c, t.SeesBody scopes m c ∧ (t.decl c).body = some n
  | .members, n => own = false ∧ ∃ c body, t.SeesBody scopes m c ∧ (t.decl c).body = some body ∧
      n ∈ body.namedChildren ∧ n.kind = "enum_body_declarations"
  | .member, n => own = false ∧ ∃ c body, t.SeesMember scopes m c n ∧ (t.decl c).body = some body ∧
      n ∈ memberNodes body

/-- the class that `n` declares has the body `b` -/
def DeclaresBody (t : Table) (n b : Node) : Prop :=
  ∃ c, t.classFor n = some c ∧ (t.decl c).body = some b

theorem Sound.enters_of_classFor (h : t.Sound) (hkeys : t.source.root.HasDistinctKeys)
    (hn : n ∈ t.source.root.preorder) (hshaped : n.isClassShaped = true) (hclass : t.classFor n = some k) :
    n.Enters (t.decl k).body := by
  obtain ⟨e, hfind, rfl⟩ := Option.map_eq_some_iff.mp hclass
  obtain ⟨_, n', hn', hkey, henters⟩ := h.declared e (List.mem_of_find?_eq_some hfind)
  have hfound : e.1 = n.key := beq_iff_eq.mp (List.find?_some hfind :)
  rw [Node.eq_of_key_eq hkeys hn hn' hshaped (hkey.trans hfound).symm]
  exact henters

theorem classFor_of_key (h : n.key ∈ t.declared.map (·.1)) : ∃ k, t.classFor n = some k := by
  obtain ⟨e, he, hkey⟩ := List.mem_map.mp h
  cases hfind : t.declared.find? (·.1 == n.key) with
  | some found => exact ⟨found.2, by rw [classFor, hfind]; rfl⟩
  | none => exact absurd (beq_iff_eq.mpr hkey) (List.find?_eq_none.mp hfind e he)

/-! ## from a node to its children -/

theorem covers_body (built : ofSource source = .ok t) (hregular : t.source.root.isRegular = true)
    (hn : n ∈ t.source.root.preorder) (hshaped : n.isClassShaped = true)
    (hbody : ∀ body, n.Enters body → body = some c) (hclass : t.classFor n = some k)
    (hsees : t.SeesBody scopes m k) : t.Covers scopes m false .body c ∧ t.DeclaresBody n c := by
  have hdecl : (t.decl k).body = some c :=
    hbody _ ((sound_of_ofSource built).enters_of_classFor (Node.distinct_of_isRegular hregular) hn hshaped hclass)
  exact ⟨⟨rfl, k, hsees, hdecl⟩, k, hclass, hdecl⟩

theorem kind_of_constant (h : MemberKind.ofKind n.kind = .constant) : n.kind = "enum_constant" := by
  unfold MemberKind.ofKind at h
  split at h
  all_goals first | cases h | skip
  · assumption
  · split at h <;> cases h

theorem body_of_enters (hconstruct : n.construct ≠ .creation) (hc : n.child? "body" = some c) :
    ∀ body, n.Enters body → body = some c := by
  intro body henters
  rw [Node.Enters, if_neg hconstruct, hc] at henters
  exact henters

section
variable (clear : t.classify scopes m = .ok (.clear edges, s'))
include clear

theorem SeesBody.covers_member (h : t.SeesBody scopes m k) (hbody : (t.decl k).body = some body)
    (hc : c ∈ memberNodes body) (hspot : c.memberSpot = some σ) : t.Covers scopes m false σ c := by
  have hmember := h.member clear hbody hc
  cases hkind : MemberKind.ofKind c.kind with
  | other =>
    rw [Node.memberSpot, hkind] at hspot
    cases hspot
  | block =>
    rw [Node.memberSpot, hkind] at hspot
    cases hspot
    exact .seen (hmember.block hkind)
  | _ =>
    rw [Node.memberSpot, hkind] at hspot
    cases hspot
    exact ⟨rfl, k, body, hmember, hbody, hc⟩

end

section
variable (built : ofSource source = .ok t) (hregular : t.source.root.isRegular = true)
include built hregular

theorem SeesMember.covers_part (h : t.SeesMember scopes m k n) (hbody : (t.decl k).body = some body)
    (hn : n ∈ memberNodes body) (hc : c ∈ n.namedChildren) (hpart : n.memberPart c = some σ) :
    t.Covers scopes m false σ c := by
  have hsound := sound_of_ofSource built
  have hlt : k < t.classes.size := lt_of_body hbody
  have htree : n ∈ t.source.root.preorder :=
    Node.mem_preorder_of_mem_memberNodes hn (hsound.body k hlt body hbody)
  have hentered : n.declaresMemberClass = true → ∃ k', t.classFor n = some k' := fun hdeclares =>
    classFor_of_key (covered_of_ofSource built hlt body hbody n hn hdeclares)
  unfold Node.memberPart at hpart
  cases hkind : MemberKind.ofKind n.kind <;> simp only [hkind] at hpart
  case field =>
    rw [Option.ite_none_right_eq_some] at hpart
    obtain ⟨hd, hσ⟩ := hpart
    cases hσ
    exact fun value hvalue => h.field hkind hd hvalue
  case method =>
    rw [Option.ite_none_right_eq_some, Node.isIn_singleton] at hpart
    obtain ⟨hcode, hσ⟩ := hpart
    have hsees := h.method hkind hcode
    split at hσ
    · rename_i hconstructor
      cases hσ
      refine ⟨rfl, hsees, ?_⟩
      rw [Node.construct, beq_iff_eq.mp hconstructor]
      rfl
    · cases hσ
      exact .seen hsees
  case staticBlock =>
    cases hpart
    exact .seen (h.staticBlock hkind hc)
  case nested flavour =>
    rw [Option.ite_none_right_eq_some, Node.isIn_singleton] at hpart
    obtain ⟨hcode, hσ⟩ := hpart
    cases hσ
    have hflavour := ofKind?_of_nested hkind
    have hconstruct : n.construct = .classDeclaration flavour :=
      Construct.ofKind_of_classKind hflavour
    obtain ⟨k', hclass⟩ := hentered (by rw [Node.declaresMemberClass, hkind])
    refine (covers_body built hregular htree ?_ (body_of_enters ?_ hcode) hclass
      (h.nested hkind hclass)).1
    · rw [Node.isClassShaped, hflavour]
      rfl
    · rw [hconstruct]
      intro hcreation
      cases hcreation
  case constant =>
    obtain ⟨harguments, hnested⟩ := h.constant hkind
    split at hpart
    · rename_i hargument
      cases hpart
      exact .seen (harguments c (Node.isIn_singleton.mp hargument))
    simp only [Option.ite_none_right_eq_some, Node.isIn_singleton] at hpart
    obtain ⟨hcode, hσ⟩ := hpart
    cases hσ
    obtain ⟨k', hclass⟩ := hentered (by rw [Node.declaresMemberClass, hkind, hcode]; rfl)
    refine (covers_body built hregular htree ?_ (body_of_enters (construct_of_constant hkind) hcode)
      hclass (hnested k' hclass)).1
    rw [Node.isClassShaped, kind_of_constant hkind]
    rfl
  case block | other => cases hpart

end

section
variable (built : ofSource source = .ok t) (hregular : t.source.root.isRegular = true)
  (clear : t.classify scopes m = .ok (.clear edges, s'))
  (hforeign : t.declaredWithin m.owner m = false) (hnamed : n.named = true)
  (hn : n ∈ t.source.root.preorder) (hc : c ∈ n.namedChildren)
include built hregular clear hnamed hn hc

theorem Sees.covers_body (h : t.Sees scopes m own n)
    (hbody : ((∃ kind, n.construct = .classDeclaration kind) ∧ n.child? "body" = some c) ∨
      (n.construct = .creation ∧ c.kind = "class_body" ∧ n.isOnlyBody c = true)) :
    t.Covers scopes m false .body c ∧ t.DeclaresBody n c := by
  rcases hbody with ⟨⟨kind, hconstruct⟩, hchild⟩ | ⟨hconstruct, hkind, honly⟩
  · obtain ⟨k, hclass, hsees⟩ := h.localClass clear hnamed hconstruct
    refine Table.covers_body built hregular hn (Node.isClassShaped_of_construct (.inr ⟨kind, hconstruct⟩))
      (body_of_enters ?_ hchild) hclass hsees
    rw [hconstruct]
    intro hcreation
    cases hcreation
  · obtain ⟨k, hclass, hsees⟩ := h.anonymousClass clear hnamed hconstruct hc hkind
    refine Table.covers_body built hregular hn (Node.isClassShaped_of_construct (.inl hconstruct)) ?_ hclass
      hsees
    intro body henters
    rw [Node.Enters, if_pos hconstruct] at henters
    obtain ⟨b, hb, hkind', rfl⟩ := henters
    have hmem : b ∈ n.namedChildren.filter (·.kind == "class_body") :=
      List.mem_filter.mpr ⟨hb, beq_iff_eq.mpr hkind'⟩
    rw [of_decide_eq_true honly, List.mem_singleton] at hmem
    rw [hmem]

include hforeign

theorem Handles.covers_part (h : t.Handles scopes m own n) (hpart : n.codePart c = some σ) :
    ∃ own', t.Covers scopes m own' σ c ∧ (own' = own ∨ (σ = .body ∧ t.DeclaresBody n c)) := by
  cases h with
  | receiver hconstruct =>
    simp only [Node.codePart, hconstruct] at hpart
    cases hpart
  | thisAccess hthis hobject =>
    have hconstruct := construct_of_isThisAccess hthis
    simp only [Node.codePart, hconstruct, Option.ite_none_right_eq_some, Bool.and_eq_true,
      Bool.not_eq_true'] at hpart
    obtain ⟨field, hfield, hkind⟩ := field_of_isThisAccess hthis
    exact absurd hkind (Node.field_of_not_qualifies hpart.1.2 hconstruct hobject hfield)
  | seen hsees =>
    rcases Node.codePart_cases hpart with rfl | ⟨rfl, hconstruct, hd⟩ | ⟨rfl, hconstruct, hlist⟩ |
      ⟨rfl, hbody⟩
    · exact ⟨own, hsees.handles_part clear hforeign hnamed hc hpart, .inl rfl⟩
    · have hplanned : n.construct.isPlanned = true := by rw [hconstruct]; rfl
      refine ⟨own, fun value hvalue => ?_, .inl rfl⟩
      obtain ⟨place, hstep⟩ := Node.visit_value_mem_plan hconstruct hd hvalue
      exact hsees.visit clear hnamed hplanned hstep
    · have hplanned : n.construct.isPlanned = true := by rw [hconstruct]; rfl
      refine ⟨own, fun resource hresource part place hstep => ?_, .inl rfl⟩
      exact hsees.visit clear hnamed hplanned
        (Node.resourceSteps_subset_plan hconstruct hlist hresource hstep)
    · obtain ⟨hcovers, hdeclares⟩ := hsees.covers_body built hregular clear hnamed hn hc hbody
      exact ⟨false, hcovers, .inr ⟨rfl, hdeclares⟩⟩

theorem Covers.step {σ' : Spot} (h : t.Covers scopes m own σ n) (hnext : n.next σ c = some σ') :
    ∃ own', t.Covers scopes m own' σ' c ∧ (own' = own ∨ (σ' = .body ∧ t.DeclaresBody n c)) := by
  have hcnamed : c.named = true := (List.mem_filter.mp hc).2
  unfold Node.next at hnext
  rw [hcnamed, Bool.not_true, if_neg Bool.false_ne_true] at hnext
  cases σ with
  | code => exact h.covers_part built hregular clear hforeign hnamed hn hc hnext
  | constructorBody =>
    obtain ⟨rfl, hsees, hconstruct⟩ := h
    have hpart : n.codePart c = some .code := by simp only [Node.codePart, hconstruct]
    obtain ⟨place, hstep⟩ := Node.visit_mem_plan hc hpart
    have hpart := hsees.visit clear hnamed (by rw [hconstruct]; rfl) hstep
    simp only at hnext
    split at hnext
    · rename_i hcall
      cases hnext
      exact ⟨false, ⟨rfl, hpart, beq_iff_eq.mp hcall⟩, .inl rfl⟩
    · cases hnext
      exact ⟨false, .seen hpart, .inl rfl⟩
  | constructorCall =>
    obtain ⟨rfl, hsees, hconstruct⟩ := h
    simp only [Option.ite_none_left_eq_some] at hnext
    obtain ⟨htype, hσ⟩ := hnext
    cases hσ
    by_cases hreceiver : c.construct = .receiver
    · exact ⟨false, .receiver hreceiver rfl, .inl rfl⟩
    · exact ⟨false, .seen (hsees.constructorCall clear hnamed hconstruct hc hreceiver
        (Bool.eq_false_iff.mpr htype)), .inl rfl⟩
  | declarator =>
    simp only [Option.ite_none_right_eq_some, Node.isIn_singleton] at hnext
    obtain ⟨hvalue, hσ⟩ := hnext
    cases hσ
    exact ⟨own, .seen (h c hvalue), .inl rfl⟩
  | resources =>
    cases hnext
    exact ⟨own, h c hc, .inl rfl⟩
  | resource =>
    simp only [Option.ite_none_right_eq_some] at hnext
    obtain ⟨hvalue, hσ⟩ := hnext
    cases hσ
    obtain ⟨place, hstep⟩ := Node.visit_mem_resourceSteps hc hvalue
    exact ⟨own, .seen (h c place hstep), .inl rfl⟩
  | body =>
    obtain ⟨rfl, k, hsees, hbody⟩ := h
    simp only at hnext
    split at hnext
    · rename_i hkind
      cases hnext
      exact ⟨false, ⟨rfl, k, n, hsees, hbody, hc, beq_iff_eq.mp hkind⟩, .inl rfl⟩
    · rename_i hkind
      have hmem : c ∈ memberNodes n :=
        List.mem_flatMap.mpr ⟨c, hc, by rw [if_neg hkind]; exact List.mem_singleton_self c⟩
      exact ⟨false, hsees.covers_member clear hbody hmem hnext, .inl rfl⟩
  | members =>
    obtain ⟨rfl, k, body, hsees, hbody, hmem, hkind⟩ := h
    have hmem : c ∈ memberNodes body :=
      List.mem_flatMap.mpr ⟨n, hmem, by rw [if_pos (beq_iff_eq.mpr hkind)]; exact hc⟩
    exact ⟨false, hsees.covers_member clear hbody hmem hnext, .inl rfl⟩
  | member =>
    obtain ⟨rfl, k, body, hmember, hbody, hmem⟩ := h
    exact ⟨false, hmember.covers_part built hregular hbody hmem hc hnext, .inl rfl⟩

end

/-! ## down to a receiver -/

theorem Covers.own_of_isDeclaration (h : t.Covers scopes m own σ n) (hσ : σ.isDeclaration = true) :
    own = false := by
  cases σ with
  | body | members | member => exact h.1
  | _ => cases hσ

section
variable (built : ofSource source = .ok t) (hregular : t.source.root.isRegular = true)
  (clear : t.classify scopes m = .ok (.clear edges, s'))
  (hforeign : t.declaredWithin m.owner m = false)
include clear hforeign

theorem Covers.qualified (h : t.Covers scopes m own σ n) (hfits : n.fits σ = true)
    (live : n.isInert = false) (hnamed : n.named = true) {r outer : Node} (hr : r ∈ n.children)
    (hqualifier : n.qualifier? r = some outer) : t.ResolvesInside scopes m n outer := by
  by_cases hσ : σ = .code
  · subst hσ
    exact Handles.qualified clear hforeign hnamed h hqualifier
  · have hnone := (Node.fits_shape hfits live hσ).2
    rw [Node.qualifies_of_qualifier? hr hqualifier] at hnone
    cases hnone

include built hregular

/-- Wherever a receiver stands below a covered node: the class in front of it is one inside the method, or, if there is none
and the way down started in the method's own code, it has passed the body of a class. -/
theorem Covers.receiver {via : List Node} {p r : Node} (occurs : n.Occurs via p r)
    (hr : r.isReceiver = true) (h : t.Covers scopes m own σ n) (hfits : n.fits σ = true)
    (hnamed : n.named = true) (hn : n ∈ t.source.root.preorder) :
    (∀ outer, p.qualifier? r = some outer → t.ResolvesInside scopes m p outer) ∧
      (own = true → p.qualifier? r = none → ∃ k b, [k, b] <:+: via ∧ t.DeclaresBody k b) := by
  induction occurs generalizing own σ with
  | @here n r live hmem =>
    refine ⟨fun outer => h.qualified clear hforeign hfits live hnamed hmem, fun hown hnone => ?_⟩
    cases hnext : n.next σ r with
    | some σ' =>
      have hrnamed : r ∈ n.namedChildren :=
        List.mem_filter.mpr ⟨hmem, Node.named_of_next hnext⟩
      obtain ⟨own', hcovers, hown'⟩ := h.step built hregular clear hforeign hnamed hn hrnamed hnext
      have hfits' := Node.fits_next hfits live hmem hnext
      by_cases hσ : σ' = .code
      · subst hσ
        have hfalse : own' = false :=
          Handles.own_eq_false clear hforeign (Node.named_of_next hnext) hcovers hr
        rcases hown' with hsame | ⟨hbody, _⟩
        · rw [← hsame, hfalse] at hown
          cases hown
        · cases hbody
      · rw [(Node.fits_shape hfits' (Node.isInert_of_isReceiver hr) hσ).1] at hr
        cases hr
    | none =>
      have hspares := Node.fits_spares hfits live hmem hnext
      cases hσ : σ.isDeclaration with
      | true =>
        rw [h.own_of_isDeclaration hσ] at hown
        cases hown
      | false =>
        have hself : r ∈ r.exposed := by
          rw [Node.exposed_eq (Node.isInert_of_isReceiver hr)]
          exact List.mem_cons_self
        rw [Node.no_receiver_of_spares hspares hnone hσ r hself] at hr
        cases hr
  | @deeper n c p r via live hc rest ih =>
    cases hnext : n.next σ c with
    | some σ' =>
      have hcnamed := Node.named_of_next hnext
      obtain ⟨own', hcovers, hown'⟩ :=
        h.step built hregular clear hforeign hnamed hn (List.mem_filter.mpr ⟨hc, hcnamed⟩) hnext
      obtain ⟨hqualified, hbare⟩ := ih hr hcovers (Node.fits_next hfits live hc hnext) hcnamed
        (Node.mem_preorder_of_mem_children hc hn)
      refine ⟨hqualified, fun hown hnone => ?_⟩
      rcases hown' with rfl | ⟨_, hdeclares⟩
      · obtain ⟨k, b, hinfix, hdeclares⟩ := hbare hown hnone
        exact ⟨k, b, hinfix.trans (List.suffix_cons n via).isInfix, hdeclares⟩
      · obtain ⟨after, rfl⟩ := rest.via_eq
        exact ⟨n, c, ⟨[], after, rfl⟩, hdeclares⟩
    | none =>
      have hspares := Node.fits_spares hfits live hc hnext
      cases hkeyword : n.qualifier? c with
      | some outer => exact absurd (Node.keyword_of_spares hspares hkeyword) rest.children_ne_nil
      | none =>
        cases hσ : σ.isDeclaration with
        | true =>
          refine ⟨fun outer houter => ?_, fun hown => ?_⟩
          · have hqualifies := Node.no_qualified_of_spares hspares hkeyword hσ p rest.mem_exposed
            rw [Node.qualifies_of_qualifier? rest.mem_children houter] at hqualifies
            cases hqualifies
          · rw [h.own_of_isDeclaration hσ] at hown
            cases hown
        | false =>
          rw [Node.no_receiver_of_spares hspares hkeyword hσ r (rest.receiver_mem_exposed hr)] at hr
          cases hr

end

/-! ## the body of the method -/

theorem lt_of_methodBody (h : (t.method m).body = some body) : m.owner < t.classes.size := by
  obtain ⟨node, hnode, _⟩ := Option.bind_eq_some_iff.mp h
  exact (mem_methods_of_node hnode).1

/-- a class is not declared within its own methods -/
theorem Sound.owner_foreign (h : t.Sound) (hm : m.owner < t.classes.size) :
    t.declaredWithin m.owner m = false := by
  rw [declaredWithin, List.any_eq_false]
  intro k hk henclosing
  have hle : k ≤ m.owner := by
    rcases List.mem_cons.mp hk with rfl | hk
    · exact Nat.le_refl _
    · exact Nat.le_of_lt (h.outers_lt m.owner hm k hk)
  have hlt : k < t.classes.size := Nat.lt_of_le_of_lt hle hm
  have hhead := h.enclosing k hlt m (beq_iff_eq.mp henclosing)
  have houter := h.outers_lt k hlt m.owner (List.mem_of_mem_head? hhead)
  exact Nat.lt_irrefl _ (Nat.lt_of_lt_of_le houter hle)

theorem ScopesReached.grows {s : Scopes} (h : t.ScopesReached s) : t.scopes.Grows s := by
  induction h with
  | start => exact .refl _
  | next _ hverdict ih => exact t.scopes.invariant_grows.kept.classify (admission_all t) ih hverdict

theorem sees_body (built : ofSource source = .ok t) (reached : t.ScopesReached scopes)
    (hbody : (t.method m).body = some body) (clear : t.classify scopes m = .ok (.clear edges, s')) :
    t.Sees scopes m true body := by
  obtain ⟨_, scope, opened, _, hbody', hopen, _⟩ := opens_of_clear clear
  cases hbody.symm.trans hbody'
  refine ⟨walkDepth t, scope, { scopes := opened },
    ⟨body, scope, opened, hbody, hopen, .here _ _ _⟩, fun _ => ?_⟩
  obtain ⟨around, hstands⟩ := (sound_of_ofSource built).classScope m.owner (lt_of_methodBody hbody)
  exact ⟨around, ((hstands.grows reached.grows).childDeclaring hopen).stands⟩

/-- the body of a method that is no constructor is as the grammar has it -/
theorem regular_body (built : ofSource source = .ok t) (hregular : t.source.root.isRegular = true)
    (hmethod : (t.method m).isConstructor = false) (hbody : (t.method m).body = some body) :
    body.named = true ∧ body.fits .code = true ∧ body ∈ t.source.root.preorder := by
  obtain ⟨node, hnode, hchild⟩ := Option.bind_eq_some_iff.mp hbody
  have hdeclared := (sound_of_ofSource built).declaredBy hnode
  have hkind : node.kind = "method_declaration" := by
    rw [hdeclared.isConstructor] at hmethod
    simpa using hmethod
  rw [Node.isRegular, Bool.and_eq_true, List.all_eq_true] at hregular
  have hnode := hregular.1 node hdeclared.inTree
  rw [Node.isRegularMethod, hkind, hchild] at hnode
  simp only [bne_self_eq_false, Bool.false_or, Option.all_some, Bool.and_eq_true] at hnode
  exact ⟨hnode.1, hnode.2, Node.mem_preorder_of_mem_children (Node.mem_of_child? hchild) hdeclared.inTree⟩

/-! ## no receiver survives -/

/-- A method that is no constructor and is found not to use its instance: wherever `this` or `super` stands below its body, in
its own code or in that of a class declared there, but not below something inert. If a class name is in front of it then that
name denotes, in the scope of that place, a class declared within the method; and if not, the way down from the method's
body to it leads through the body of a class. -/
theorem receivers_stay_inside (built : ofSource source = .ok t)
    (hregular : source.root.isRegular = true) (reached : t.ScopesReached scopes)
    (hmethod : (t.method m).isConstructor = false)
    (clear : t.classify scopes m = .ok (.clear edges, s')) {body : Node}
    (hbody : (t.method m).body = some body) {via : List Node} {p r : Node}
    (occurs : body.Occurs via p r) (hr : r.kind = "this" ∨ r.kind = "super") :
    (∀ outer, p.qualifier? r = some outer → t.ResolvesInside scopes m p outer) ∧
      (p.qualifier? r = none → ∃ k b, [k, b] <:+: via ∧ t.DeclaresBody k b) := by
  rw [← source_of_ofSource built] at hregular
  obtain ⟨hnamed, hfits, htree⟩ := regular_body built hregular hmethod hbody
  have hforeign := (sound_of_ofSource built).owner_foreign (lt_of_methodBody hbody)
  have hreceiver : r.isReceiver = true := beq_iff_eq.mpr (Node.construct_eq_receiver.mpr hr)
  have hcovers : t.Covers scopes m true .code body := .seen (sees_body built reached hbody clear)
  obtain ⟨hqualified, hbare⟩ :=
    hcovers.receiver built hregular clear hforeign occurs hreceiver hfits hnamed htree
  exact ⟨hqualified, hbare rfl⟩

end Table

/-! ## receivers of a class declared inside -/

/-- the trees of `B`, `B.this` and `this.x`, and of the keywords in them -/
def boundName : Node := ⟨"identifier", true, false, 63, 64, some "object", []⟩

def boundThis : Node := ⟨"this", true, false, 65, 69, some "field", []⟩

def boundAccess : Node := ⟨"field_access", true, false, 63, 69, some "object", [boundName, boundThis]⟩

def bareThis : Node := ⟨"this", true, false, 74, 78, some "object", []⟩

def bareAccess : Node :=
  ⟨"field_access", true, false, 74, 80, some "right", [
    bareThis, ⟨"identifier", true, false, 79, 80, some "field", []⟩]⟩

/-- `B.this.x` -/
def fieldOfBound : Node :=
  ⟨"field_access", true, false, 63, 71, some "left", [
    boundAccess, ⟨"identifier", true, false, 70, 71, some "field", []⟩]⟩

def sumOfFields : Node :=
  ⟨"binary_expression", true, false, 63, 80, none, [
    fieldOfBound, ⟨"+", false, false, 72, 73, some "operator", []⟩, bareAccess]⟩

def sumReturn : Node :=
  ⟨"return_statement", true, false, 56, 81, none, [
    ⟨"return", false, false, 56, 62, none, []⟩, sumOfFields]⟩

def sumBlock : Node := ⟨"block", true, false, 54, 83, some "body", [sumReturn]⟩

def sumMethod : Node :=
  ⟨"method_declaration", true, false, 46, 83, none, [
    ⟨"integral_type", true, false, 46, 49, some "type", [
      ⟨"int", false, false, 46, 49, none, []⟩]⟩,
    ⟨"identifier", true, false, 50, 51, some "name", []⟩,
    ⟨"formal_parameters", true, false, 51, 53, some "parameters", []⟩, sumBlock]⟩

def holderBody : Node :=
  ⟨"class_body", true, false, 37, 85, some "body", [
    ⟨"field_declaration", true, false, 39, 45, none, [
      ⟨"integral_type", true, false, 39, 42, some "type", [
        ⟨"int", false, false, 39, 42, none, []⟩]⟩,
      ⟨"variable_declarator", true, false, 43, 44, some "declarator", [
        ⟨"identifier", true, false, 43, 44, some "name", []⟩]⟩]⟩,
    sumMethod]⟩

def holderClass : Node :=
  ⟨"class_declaration", true, false, 29, 85, none, [
    ⟨"class", false, false, 29, 34, none, []⟩, ⟨"identifier", true, false, 35, 36, some "name", []⟩, holderBody]⟩

def holderBlock : Node := ⟨"block", true, false, 27, 87, some "body", [holderClass]⟩

/-- `class A { private void f() { class B { int x; int g() { return B.this.x + this.x; } } } }` -/
def innerReceivers : SourceUnit :=
  .ofText ("class A \x7b private void f() \x7b class B \x7b int x; " ++
    "int g() \x7b return B.this.x + this.x; \x7d \x7d \x7d \x7d") ⟨
    ⟨"program", true, false, 0, 89, none, [
      ⟨"class_declaration", true, false, 0, 89, none, [
        ⟨"class", false, false, 0, 5, none, []⟩, ⟨"identifier", true, false, 6, 7, some "name", []⟩,
        ⟨"class_body", true, false, 8, 89, some "body", [
          ⟨"method_declaration", true, false, 10, 87, none, [
            ⟨"modifiers", true, false, 10, 17, none, [
              ⟨"private", false, false, 10, 17, none, []⟩]⟩,
            ⟨"void_type", true, false, 18, 22, some "type", []⟩, ⟨"identifier", true, false, 23, 24, some "name", []⟩,
            ⟨"formal_parameters", true, false, 24, 26, some "parameters", []⟩,
            holderBlock]⟩]⟩]⟩]⟩, none⟩

/-- the way from the body of `f` down to the sum -/
def wayToSum : List Node :=
  [holderBlock, holderClass, holderBody, sumMethod, sumBlock, sumReturn]

theorem occurs_below_sum {via : List Node} {p r : Node} (h : sumOfFields.Occurs via p r) :
    holderBlock.Occurs (wayToSum ++ via) p r := by
  have hreturn : sumReturn.Occurs (sumReturn :: via) p r := .deeper rfl (by simp [sumReturn]) h
  have hmethod : sumMethod.Occurs (sumMethod :: sumBlock :: sumReturn :: via) p r :=
    .deeper rfl (by simp [sumMethod]) (.deeper rfl (by simp [sumBlock]) hreturn)
  have hclass := Node.Occurs.deeper (n := holderClass) rfl (by simp [holderClass])
    (.deeper (n := holderBody) rfl (by simp [holderBody]) hmethod)
  exact .deeper rfl (by simp [holderBlock]) hclass

theorem boundThis_occurs :
    sumOfFields.Occurs [sumOfFields, fieldOfBound, boundAccess] boundAccess boundThis := by
  refine .deeper (c := fieldOfBound) rfl (by simp [sumOfFields]) ?_
  exact .deeper rfl (by simp [fieldOfBound]) (.here rfl (by simp [boundAccess]))

theorem bareThis_occurs : sumOfFields.Occurs [sumOfFields, bareAccess] bareAccess bareThis :=
  .deeper rfl (by simp [sumOfFields]) (.here rfl (by simp [bareAccess]))

def Table.ClearsHolder (t : Table) : Prop :=
  (t.method ⟨0, 0⟩).body = some holderBlock ∧ (t.method ⟨0, 0⟩).isConstructor = false ∧
    ((t.classify t.scopes ⟨0, 0⟩).toOption.any fun result => result.1 matches .clear _) = true
deriving Decidable

/-- `f` is clear: `B.this` names a class inside it, and the bare `this` stands in the body of one -/
theorem innerReceivers_stay_inside :
    ∃ t, Table.ofSource innerReceivers = .ok t ∧
      boundAccess.qualifier? boundThis = some boundName ∧
      t.ResolvesInside t.scopes ⟨0, 0⟩ boundAccess boundName ∧
      bareAccess.qualifier? bareThis = none ∧
      ∃ k b, [k, b] <:+: wayToSum ++ [sumOfFields, bareAccess] ∧ t.DeclaresBody k b := by
  have hbuilt : ((Table.ofSource innerReceivers).toOption.any fun t => decide t.ClearsHolder) = true := by
    decide +kernel
  obtain ⟨t, built, hholder⟩ := Run.of_toOption_any hbuilt
  obtain ⟨hbody, hmethod, hclear⟩ := of_decide_eq_true hholder
  obtain ⟨⟨verdict, s'⟩, hclassify, hverdict⟩ := Run.of_toOption_any hclear
  have hregular : innerReceivers.root.isRegular = true := by decide +kernel
  have hbound : boundAccess.qualifier? boundThis = some boundName := by decide +kernel
  have hbare : bareAccess.qualifier? bareThis = none := by decide +kernel
  cases verdict with
  | access => cases hverdict
  | clear edges =>
    have hresolves := (Table.receivers_stay_inside built hregular .start hmethod hclassify hbody
      (occurs_below_sum boundThis_occurs) (.inl rfl)).1 boundName hbound
    have hinside := (Table.receivers_stay_inside built hregular .start hmethod hclassify hbody
      (occurs_below_sum bareThis_occurs) (.inl rfl)).2 hbare
    exact ⟨t, built, hbound, hresolves, hbare, hinside⟩

end StaticPromotion
