import StaticPromotion.Proofs.Building

/-!
# Where fields come from

A field of the table keeps its name, class and line, but not its declaration. Here it is said what traces a field back to the
member of the class body that declares it. Only the components of a record have none: they stand in its header.

* `Node.declarators`, `Node.declaresStatic`   the nodes of a member that name fields, and whether these are static;
* `Field.DeclaredBy`       a member declares the field;
* `Table.Originates c e`   the entry `e` among the fields of the class `c` is a component, or some member declares it;
* `Table.Traced`           every field of the table is traced back.
-/

namespace StaticPromotion

/-! ## declarations of fields -/

namespace Node

def declarators (member : Node) : List Node :=
  match Table.MemberKind.ofKind member.kind with
  | .field => member.childrenAt "declarator"
  | .constant => [member]
  | _ => []

/-- whether the fields that a member declares in a class of that kind are static -/
def declaresStatic (member : Node) (kind : ClassKind) : Bool :=
  match Table.MemberKind.ofKind member.kind with
  | .field => member.modifiers.1.contains "static" || member.kind == "constant_declaration" || kind.isInterface
  | _ => true

end Node

structure Field.DeclaredBy (field : Field) (source : SourceUnit) (kind : ClassKind) (member : Node) : Prop where
  named : ∃ declarator ∈ member.declarators, ∃ nameNode, declarator.child? "name" = some nameNode ∧
    source.text nameNode = .ok field.name ∧ field.line = source.line declarator
  isStatic : field.isStatic = member.declaresStatic kind

theorem Registry.mem_put {α : Type} {r : Registry α} {name : String} {v : α} {e : String × α}
    (h : e ∈ r.put name v) : e ∈ r ∨ e = (name, v) := by
  induction r with
  | nil => exact .inr (List.mem_singleton.mp h)
  | cons entry rest ih =>
    rw [put] at h
    split at h
    · rcases List.mem_cons.mp h with hnew | hold
      · exact .inr hnew
      · exact .inl (List.mem_cons_of_mem _ hold)
    · rcases List.mem_cons.mp h with hold | hrest
      · exact .inl (hold ▸ List.mem_cons_self)
      · exact (ih hrest).imp_left (List.mem_cons_of_mem _)

theorem Registry.mem_of_get? {α : Type} {r : Registry α} {name : String} {v : α}
    (h : r.get? name = some v) : (name, v) ∈ r := by
  induction r with
  | nil => cases h
  | cons entry rest ih =>
    rw [get?] at h
    split at h
    · rename_i hname
      cases h
      exact hname ▸ List.mem_cons_self
    · exact List.mem_cons_of_mem _ (ih h)

namespace Table

variable {t t' : Table} {c : ClassId}

/-- the members of the body of a class -/
def membersOf (t : Table) (c : ClassId) : List Node :=
  ((t.decl c).body.map memberNodes).getD []

theorem membersOf_of_body {body : Node} (h : (t.decl c).body = some body) : t.membersOf c = memberNodes body := by
  rw [membersOf, h]
  rfl

theorem lt_of_mem_membersOf {member : Node} (h : member ∈ t.membersOf c) : c < t.classes.size := by
  rcases Nat.lt_or_ge c t.classes.size with hlt | hge
  · exact hlt
  · rw [membersOf, decl_of_le t hge] at h
    cases h

structure Originates (t : Table) (c : ClassId) (e : String × Field) : Prop where
  name : e.2.name = e.1
  owner : e.2.owner = c
  declared : ((t.decl c).kind = .record ∧ e.2.isStatic = false) ∨
    ∃ member ∈ t.membersOf c, e.2.DeclaredBy t.source (t.decl c).kind member

def Traced (t : Table) : Prop :=
  ∀ c < t.classes.size, ∀ e ∈ (t.decl c).fields, t.Originates c e

/-- a class that keeps its kind and its members traces its fields back as before -/
theorem Originates.keep {e : String × Field} (h : t.Originates c e) (hsource : t'.source = t.source)
    (hkind : (t'.decl c).kind = (t.decl c).kind) (hbody : (t'.decl c).body = (t.decl c).body) :
    t'.Originates c e := by
  refine ⟨h.name, h.owner, ?_⟩
  rw [membersOf, hkind, hbody, hsource]
  exact h.declared

theorem Traced.setScopes (h : t.Traced) (s : Scopes) : Traced { t with scopes := s } :=
  fun k hk e he => (h k hk e he).keep rfl rfl rfl

theorem Traced.entered {node : Node} {d : ClassDecl} {parent : ScopeId} {shown : String} (h : t.Traced)
    (hfields : d.fields = []) : (t.entered node d parent shown).Traced := by
  intro k hk e he
  rw [size_entered] at hk
  rcases Nat.lt_succ_iff_lt_or_eq.mp hk with hlt | rfl
  · have hold := decl_entered_of_lt t node d parent shown hlt
    rw [hold] at he
    refine (h k hlt e he).keep rfl ?_ ?_ <;> rw [hold]
  · rw [decl_entered_self] at he
    replace he : e ∈ d.fields := he
    rw [hfields] at he
    cases he

end Table

end StaticPromotion
