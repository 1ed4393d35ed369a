import StaticPromotion.Proofs.Confluence
import StaticPromotion.Proofs.Rewriting
import StaticPromotion.Proofs.Shifting

/-!
# The unit after a promotion

The word is put behind the last keyword of some candidates, in the text and in the tree. The unit so made has the table of the
first one, with more methods static. Walks over the two tables follow each other.

* `Table.wording methods`   the edit: the keyword and the list of each method;
* `ParseTree.WellPlaced`    what a parser sees to. Nodes end within the text, no two nodes share a modifier list, a name or type
                            that is read holds no modifier, and static initializers are blocks;
* `Promotion`               a unit, its table, and a text in which candidates got the word;
* `Promotion.ofSource`      the table of the new unit, which is `Promotion.after`;
* `Promotion.modifiers_after`   the modifiers in it: those of the first table, and the word for the methods `Table.worded`;
* `Promotion.following`     walks over it follow those over the first table.
-/

namespace StaticPromotion

variable {m : MethodId} {list : Node}

namespace Table

/-! ## the edit of a promotion -/

def wording (t : Table) (methods : List MethodId) : Edit :=
  .shifting (methods.filterMap fun m => (t.lastKeyword? m).map (·.stop))
    (methods.filterMap fun m => (t.method m).modifiersNode)

/-- the methods whose list gets the word -/
def worded (t : Table) (methods : List MethodId) : List MethodId :=
  (t.classIds.flatMap t.methodIds).filter fun m =>
    (t.method m).modifiersNode.any fun list => decide (list ∈ (t.wording methods).lists)

theorem mem_worded {t : Table} {methods : List MethodId} : m ∈ t.worded methods ↔
    ∃ list, (t.method m).modifiersNode = some list ∧ list ∈ (t.wording methods).lists := by
  rw [worded, List.mem_filter, Option.any_eq_true]
  constructor
  · rintro ⟨_, list, hlist, hmem⟩
    exact ⟨list, hlist, of_decide_eq_true hmem⟩
  · rintro ⟨list, hlist, hmem⟩
    refine ⟨?_, list, hlist, decide_eq_true hmem⟩
    obtain ⟨n, hnode, _⟩ := Option.bind_eq_some_iff.mp hlist
    have hdeclares : t.Declares m := by
      by_contra hout
      rw [method_of_not_declares hout] at hnode
      cases hnode
    refine List.mem_flatMap.mpr ⟨m.owner, mem_classIds.mpr (mem_methods_of_node hnode).1, ?_⟩
    exact List.mem_map.mpr ⟨m.index, List.mem_range.mpr hdeclares, rfl⟩

theorem mem_lists_wording {t : Table} {methods : List MethodId} :
    list ∈ (t.wording methods).lists ↔ ∃ m ∈ methods, (t.method m).modifiersNode = some list :=
  List.mem_filterMap

end Table

/-! ## trees -/

namespace ParseTree

def edit (e : Edit) (tree : ParseTree) : ParseTree :=
  { tree with root := tree.root.edit e }

theorem hasErrors_edit (e : Edit) (tree : ParseTree) : (tree.edit e).hasErrors = tree.hasErrors := by
  have hbroken : (tree.root.edit e).preorder.any Node.isBroken = tree.root.preorder.any Node.isBroken := by
    refine Node.any_preorder_edit e (fun n => ?_) (fun _ => rfl) tree.root
    rw [Node.isBroken, Node.kind_edit, Node.missing_edit, Node.isBroken]
  rw [hasErrors, hasErrors, edit, hbroken]

/-- what a parser sees to -/
structure WellPlaced (code : String) (tree : ParseTree) : Prop where
  within : ∀ n ∈ tree.root.preorder, n.stop ≤ (Utf8.encode code).length
  apart : ∀ n ∈ tree.root.preorder, ∀ n' ∈ tree.root.preorder,
    n.modifiers.2.isSome = true → n'.modifiers.2 = n.modifiers.2 → n' = n
  texts : ∀ n ∈ tree.root.preorder, ∀ p ∈ n.readTexts ++ n.declaredTexts, p.kind ≠ "modifiers" ∧
    ∀ word ∈ tree.root.preorder, isModifierWord word.kind = true →
      word.stop ≤ p.start ∨ p.stop ≤ word.stop
  initializers : tree.root.hasPlainInitializers = true

end ParseTree

theorem Node.hasPlainInitializers_edit (e : Edit) (root : Node) :
    (root.edit e).hasPlainInitializers = root.hasPlainInitializers := by
  rw [hasPlainInitializers, hasPlainInitializers, List.all_eq_not_any_not, List.all_eq_not_any_not]
  refine congrArg (!·) (any_preorder_edit e (fun n => ?_) (fun _ => rfl) root)
  have hparts : (n.edit e).namedChildren.all (fun part =>
      part.construct == .block || part.construct == .inert) =
      n.namedChildren.all fun part => part.construct == .block || part.construct == .inert := by
    rw [namedChildren_edit, List.all_map]
    congr 1
    funext part
    rw [Function.comp_apply, construct_edit]
  rw [kind_edit, hparts]

/-! ## promotions -/

structure Promotion (code : String) (tree : ParseTree) (t : Table) (methods : List MethodId)
    (out : String) : Prop where
  built : Table.ofSource (.ofText code tree) = .ok t
  placed : tree.WellPlaced code
  promotable : ∀ m ∈ methods, t.Promotable m
  woven : ∃ cuts : List Nat,
    (cuts.map some).Perm (methods.map fun m => (t.lastKeyword? m).map (·.stop)) ∧
    Splice.Weaves (Utf8.encode " static") cuts (Utf8.encode code) (Utf8.encode out)

namespace Promotion

variable {code out : String} {tree : ParseTree} {t : Table} {methods : List MethodId}

/-- the unit of the new text -/
def unit (_ : Promotion code tree t methods out) : SourceUnit :=
  .ofText out (tree.edit (t.wording methods))

/-- its table -/
def after (P : Promotion code tree t methods out) : Table :=
  t.edit (t.wording methods) P.unit

variable (P : Promotion code tree t methods out)
include P

theorem source : t.source = .ofText code tree :=
  Table.source_of_ofSource P.built

theorem sound : t.Sound :=
  Table.sound_of_ofSource P.built

theorem declaration_of_mem (h : list ∈ (t.wording methods).lists) :
    ∃ m ∈ methods, ∃ n, (t.method m).node = some n ∧ n.modifiers.2 = some list ∧
      (t.method m).DeclaredBy n tree.root := by
  obtain ⟨m, hm, hlist⟩ := Table.mem_lists_wording.mp h
  obtain ⟨n, hnode, hn⟩ := Option.bind_eq_some_iff.mp hlist
  have hdeclared := P.sound.declaredBy hnode
  rw [P.source] at hdeclared
  exact ⟨m, hm, n, hnode, hn, hdeclared⟩

theorem declaration_eq {n : Node} (h : list ∈ (t.wording methods).lists) (hn : n ∈ tree.root.preorder)
    (hlist : n.modifiers.2 = some list) :
    ∃ m ∈ methods, (t.method m).node = some n ∧ (t.method m).DeclaredBy n tree.root := by
  obtain ⟨m, hm, n', hnode, hlist', hdeclared⟩ := P.declaration_of_mem h
  have hsome : n'.modifiers.2.isSome = true := by rw [hlist']; rfl
  obtain rfl : n = n' := P.placed.apart n' hdeclared.inTree n hn hsome (by rw [hlist, hlist'])
  exact ⟨m, hm, hnode, hdeclared⟩

/-- what is read of the new unit is what was read of the first -/
theorem rereads : Rereads (t.wording methods) (.ofText code tree) P.unit := by
  obtain ⟨cuts, hcuts, hwoven⟩ := P.woven
  have hperm : cuts.Perm (methods.filterMap fun m => (t.lastKeyword? m).map (·.stop)) := by
    have hfilter := hcuts.filterMap id
    simpa only [List.filterMap_map, Function.id_comp, Function.comp_def, id, List.filterMap_some]
      using hfilter
  have hwords : ∀ c ∈ cuts, ∃ word ∈ tree.root.preorder, isModifierWord word.kind = true ∧
      word.stop = c := by
    intro c hc
    obtain ⟨m, hm, hstop⟩ := List.mem_filterMap.mp (hperm.mem_iff.mp hc)
    obtain ⟨word, hword, hstop⟩ := Option.map_eq_some_iff.mp hstop
    obtain ⟨word', hword', htree, _⟩ := (P.promotable m hm).spliceFor P.sound
    obtain rfl : word' = word := Option.some.inj (hword'.symm.trans hword)
    rw [P.source] at htree
    obtain ⟨list, _, hlast⟩ := Option.bind_eq_some_iff.mp hword
    exact ⟨_, htree, (List.mem_filter.mp (List.mem_of_getLast? hlast)).2, hstop⟩
  have hedit : t.wording methods = .shifting cuts (t.wording methods).lists :=
    Edit.shifting_perm hperm.symm _
  have hbytes : Splice.Weaves (Utf8.encode " static") cuts
      (SourceUnit.ofText code tree).bytes.toList P.unit.bytes.toList := hwoven
  constructor
  case root => rfl
  case texts =>
    intro n hn p hp
    obtain ⟨hkind, hapart⟩ := P.placed.texts n hn p hp
    rw [hedit]
    refine Edit.text_shifting hbytes hkind fun c hc => ?_
    obtain ⟨word, htree, hkeyword, rfl⟩ := hwords c hc
    exact hapart word htree hkeyword
  case lines =>
    intro n _
    rw [hedit]
    exact Edit.line_shifting hbytes n
  case lists =>
    intro list hlist
    obtain ⟨_, _, n, _, hn, _⟩ := P.declaration_of_mem hlist
    exact Node.kind_of_modifiers hn
  case methods =>
    intro n hn list hlist hsome
    obtain ⟨m, hm, _, hdeclared⟩ := P.declaration_eq hlist hn hsome
    have hconstructor := hdeclared.isConstructor
    rw [(P.promotable m hm).notConstructor] at hconstructor
    have hkind : n.kind = "method_declaration" := by simpa using hconstructor.symm
    rw [hkind]
    rfl

theorem ofSource : Table.ofSource P.unit = .ok P.after :=
  P.rereads.ofSource P.built

theorem restates : t.Restates (t.wording methods) P.after := by
  refine t.restates_edit _ _ ?_
  rw [P.rereads.height, P.source]

/-! ## the methods that became static -/

/-- a list that gets the word has a keyword already, and does not have the word -/
theorem words_of_mem (h : list ∈ (t.wording methods).lists) :
    ∃ m ∈ methods, list.words = (t.method m).modifiers ∧ list.words ≠ [] := by
  obtain ⟨m, hm, n, _, hlist, hdeclared⟩ := P.declaration_of_mem h
  have hwords : list.words = (t.method m).modifiers := by
    rw [hdeclared.modifiers, Node.modifiers_of_list hlist]
  refine ⟨m, hm, hwords, ?_⟩
  rw [hwords]
  exact Table.modifiers_ne_nil (P.promotable m hm).nonOverridable

theorem modifiers_after (m : MethodId) : (P.after.method m).modifiers =
    (t.method m).modifiers ++ if m ∈ t.worded methods then ["static"] else [] := by
  have hmodifiers : (P.after.method m).modifiers =
      ((t.method m).node.map fun n => (n.edit (t.wording methods)).modifiers.1).getD
        (t.method m).modifiers := by
    rw [after, Table.method_edit]
    rfl
  rw [hmodifiers]
  cases hnode : (t.method m).node with
  | none =>
    have hnot : m ∉ t.worded methods := by
      intro hm
      obtain ⟨list, hlist, _⟩ := Table.mem_worded.mp hm
      rw [Method.modifiersNode, hnode] at hlist
      cases hlist
    rw [if_neg hnot, List.append_nil]
    rfl
  | some n =>
    have hdeclared := (P.sound.declaredBy hnode).modifiers
    have hlists : m ∈ t.worded methods ↔
        ∃ list, n.modifiers.2 = some list ∧ list ∈ (t.wording methods).lists := by
      rw [Table.mem_worded, Method.modifiersNode, hnode]
      exact Iff.rfl
    rw [Option.map_some, Option.getD_some, Node.modifiers_edit, hdeclared]
    cases hlist : n.modifiers.2 with
    | none =>
      have hnot : m ∉ t.worded methods := by
        rw [hlists, hlist]
        rintro ⟨_, hsome, _⟩
        cases hsome
      rw [if_neg hnot, List.append_nil, Node.modifiers_of_none hlist]
      rfl
    | some list =>
      rw [Node.modifiers_of_list hlist, Option.map_some, Option.getD_some]
      by_cases hmem : list ∈ (t.wording methods).lists
      · obtain ⟨_, _, _, hwords⟩ := P.words_of_mem hmem
        rw [if_pos (hlists.mpr ⟨list, hlist, hmem⟩), Node.words_edit_of_mem _ hmem hwords]
      · have hnot : m ∉ t.worded methods := by
          rw [hlists]
          rintro ⟨list', hsome, hmem'⟩
          rw [hlist] at hsome
          cases hsome
          exact hmem hmem'
        rw [if_neg hnot, List.append_nil, Node.words_edit_of_not_mem _ hmem]

theorem addsStatic : Table.AddsStatic (t.worded methods) t P.after where
  isNonOverridable m := by
    rw [Method.isNonOverridable, P.modifiers_after, Method.isNonOverridable]
    split <;> simp
  isStatic m _ := by
    rw [Method.isStatic, P.modifiers_after, Method.isStatic]
    split <;> simp [*]

/-- a method with the word is a method that could be promoted, or stands for the same declaration as one -/
theorem of_mem_worded (h : m ∈ t.worded methods) :
    (t.method m).isStatic = false ∧ (t.method m).isNonOverridable = true ∧
      (t.method m).isConstructor = false := by
  obtain ⟨list, hlist, hmem⟩ := Table.mem_worded.mp h
  obtain ⟨n, hnode, hn⟩ := Option.bind_eq_some_iff.mp hlist
  have hdeclared := P.sound.declaredBy hnode
  rw [P.source] at hdeclared
  obtain ⟨m', hm', _, hdeclared'⟩ := P.declaration_eq hmem hdeclared.inTree hn
  have hmodifiers : (t.method m).modifiers = (t.method m').modifiers := by
    rw [hdeclared.modifiers, hdeclared'.modifiers]
  have hpromotable := P.promotable m' hm'
  refine ⟨?_, ?_, ?_⟩
  · rw [Method.isStatic, hmodifiers]
    exact hpromotable.notStatic
  · rw [Method.isNonOverridable, hmodifiers]
    exact hpromotable.nonOverridable
  · rw [hdeclared.isConstructor, ← hdeclared'.isConstructor]
    exact hpromotable.notConstructor

theorem mem_worded_of_mem (h : m ∈ methods) : m ∈ t.worded methods := by
  obtain ⟨word, hword, _⟩ := (P.promotable m h).spliceFor P.sound
  obtain ⟨list, hlist, _⟩ := Option.bind_eq_some_iff.mp hword
  exact Table.mem_worded.mpr ⟨list, hlist, Table.mem_lists_wording.mpr ⟨m, h, hlist⟩⟩

end Promotion

namespace Table

/-! ## walks over the new table -/

/-- the method is static in `t'` and was not so in `t` -/
def BecameStatic (t t' : Table) (m : MethodId) : Prop :=
  (t.method m).isStatic = false ∧ (t'.method m).isStatic = true

instance (t t' : Table) (m : MethodId) : Decidable (t.BecameStatic t' m) :=
  inferInstanceAs (Decidable (_ ∧ _))

/-- no method that became static declares a class in its code, save for enums, records and interfaces -/
def KeepsLocals (t t' : Table) : Prop :=
  ∀ c, (t.decl c).isLocal = true → (t.decl c).kind = .ordinary →
    ∀ m, (t.decl c).enclosingMethod = some m → ¬ t.BecameStatic t' m

end Table

namespace Promotion

variable {code out : String} {tree : ParseTree} {t : Table} {methods : List MethodId}
  (P : Promotion code tree t methods out)

theorem becameStatic_iff : t.BecameStatic P.after m ↔ m ∈ t.worded methods := by
  constructor
  · rintro ⟨hbefore, hafter⟩
    have hdeclares : t.Declares m := by
      rw [Table.Declares, ← P.restates.methodCount]
      exact Table.declares_of_isStatic hafter
    rw [P.addsStatic.isStatic m hdeclares, hbefore, Bool.false_or] at hafter
    exact of_decide_eq_true hafter
  · intro h
    obtain ⟨hbefore, hnonOverridable, _⟩ := P.of_mem_worded h
    refine ⟨hbefore, ?_⟩
    rw [P.addsStatic.isStatic m (Table.declares_of_isNonOverridable hnonOverridable),
      decide_eq_true h, Bool.or_true]

/-- a walk over the new table may meet a fault of its own, in a text that it reads and does not use -/
def following : Following (t.wording methods) (t.worded methods) t P.after where
  inTree := (SourceUnit.ofText code tree).Has
  faults := True
  faithful := t.KeepsLocals P.after
  restates := P.restates
  adds := P.addsStatic
  child _ _ hn hc := hn.child hc
  body c n hbody := by
    have hin := P.sound.body c (Table.lt_of_body hbody) n hbody
    rw [P.source] at hin
    exact hin
  method m n hnode := by
    have hin := (P.sound.declaredBy hnode).inTree
    rw [P.source] at hin
    exact hin
  texts n hn := by
    rw [P.source]
    exact P.rereads.readTexts hn
  readable := .inl trivial
  captures hkeeps m c := by
    refine P.restates.capturesInstance (fun hlocal hkind enclosing henclosing => ?_) m
    refine P.addsStatic.isStatic_of_not_mem P.restates fun hmem => ?_
    exact hkeeps c hlocal hkind enclosing henclosing (P.becameStatic_iff.mpr hmem)
  callees _ m hm := (P.of_mem_worded hm).2

theorem verdict_after {callees : List MethodId} (h : t.verdict m = .ok (.clear callees)) :
    P.after.verdict m = .ok (.clear (callees.filter fun e => decide (e ∉ t.worded methods))) ∨
      ∃ fault, P.after.verdict m = .error fault := by
  obtain ⟨⟨_, s'⟩, hclassify, rfl⟩ := Table.classify_of_verdict h
  have hscopes : P.after.scopes = t.scopes := rfl
  rcases P.following.classify hclassify with hclear | ⟨_, fault, hfault⟩
  · exact .inl (by rw [Table.verdict, hscopes, hclear]; rfl)
  · exact .inr ⟨fault, by rw [Table.verdict, hscopes, hfault]; rfl⟩

/-- a use of the instance stays one, if no local class lost its own -/
theorem access_after (hkeeps : t.KeepsLocals P.after) {finding : Finding}
    (h : t.verdict m = .ok (.access finding)) (callees : List MethodId) :
    P.after.verdict m ≠ .ok (.clear callees) := by
  obtain ⟨⟨_, s'⟩, hclassify, rfl⟩ := Table.classify_of_verdict h
  intro hclear
  obtain ⟨⟨_, s''⟩, hclassify', rfl⟩ := Table.classify_of_verdict hclear
  exact P.following.classify_access hkeeps hclassify _ _ hclassify'

end Promotion

end StaticPromotion
