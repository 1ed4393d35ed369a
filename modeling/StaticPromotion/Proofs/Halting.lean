import StaticPromotion.Proofs.Parts
import StaticPromotion.Proofs.Runs
import StaticPromotion.Access

/-!
# How walks end

A walk runs through, or it halts. Some halts say that the table does not know the tree that it was built from: a class that it
has no entry for, or a nesting without end. Others say that a text cannot be read, which cannot be where all texts can.

* `Table.Excluded t`   the halts that no walk over the tree of `t` should come to;
* `Ends bad x st Q`    from `st` the walk `x` comes to no bad halt, and if it runs through then `Q` holds in the end;
* `Harmless`           the same of a walk from every state, which leaves the scopes as they are. What is done with a single
                       name, receiver or call is harmless.
-/

namespace StaticPromotion

/-- the text of every node can be read -/
def SourceUnit.IsLegible (u : SourceUnit) : Prop :=
  ∀ n ∈ u.root.preorder, ∃ s, u.text n = .ok s

def Reason.isUnindexed : Reason → Bool
  | .unindexedLocalClass | .unindexedAnonymousClass => true
  | _ => false

def Table.Excluded (t : Table) : Halt → Prop
  | .access finding => finding.reason.isUnindexed = true
  | .fault .nestedWithoutEnd => True
  | .fault _ => t.source.IsLegible

/-! ## ends -/

structure Ends {α : Type} (bad : Halt → Prop) (x : Walk α) (st : WalkState)
    (Q : α → WalkState → Prop) : Prop where
  ok : ∀ a st', x st = .ok a st' → Q a st'
  error : ∀ halt st', x st = .error halt st' → ¬ bad halt

section
variable {α β : Type} {bad : Halt → Prop} {st : WalkState} {Q R : α → WalkState → Prop}

theorem Ends.mono {x : Walk α} (h : Ends bad x st Q) (hQ : ∀ a st', Q a st' → R a st') : Ends bad x st R :=
  ⟨fun a st' hx => hQ a st' (h.ok a st' hx), h.error⟩

theorem Ends.of_eq {x y : Walk α} {st' : WalkState} (heq : x st = y st') (h : Ends bad y st' Q) :
    Ends bad x st Q :=
  ⟨fun a st'' hx => h.ok a st'' (heq ▸ hx), fun halt st'' hx => h.error halt st'' (heq ▸ hx)⟩

theorem Ends.bind {x : Walk α} {f : α → Walk β} {S : β → WalkState → Prop}
    (h : Ends bad x st fun a st' => Ends bad (f a) st' S) : Ends bad (x >>= f) st S := by
  cases hx : x st with
  | ok a st' =>
    have hf := h.ok a st' hx
    refine ⟨fun b st'' hb => hf.ok b st'' ?_, fun halt st'' hb => hf.error halt st'' ?_⟩ <;>
    rwa [Run.bind_of_ok hx] at hb
  | error halt st' =>
    refine ⟨fun b st'' hb => ?_, fun halt' st'' hb => ?_⟩ <;> rw [Run.bind_of_error hx] at hb
    · cases hb
    · cases hb
      exact h.error halt st' hx

theorem ends_pure {a : α} (h : Q a st) : Ends bad (pure a) st Q := by
  refine ⟨fun b st' hx => ?_, fun _ _ hx => ?_⟩ <;> cases hx
  exact h

theorem ends_get {S : WalkState → WalkState → Prop} (h : S st st) : Ends bad get st S := by
  refine ⟨fun b st' hx => ?_, fun _ _ hx => ?_⟩ <;> cases hx
  exact h

theorem ends_modify {change : WalkState → WalkState} {S : Unit → WalkState → Prop}
    (h : S () (change st)) : Ends bad (modify change) st S := by
  refine ⟨fun b st' hx => ?_, fun _ _ hx => ?_⟩ <;> cases hx
  exact h

theorem ends_lift {x : Except Fault α} (h : ∀ a, x = .ok a → Q a st)
    (herror : ∀ fault, x = .error fault → ¬ bad (.fault fault)) : Ends bad (Subject.lift x) st Q := by
  cases x with
  | ok a => exact ends_pure (h a rfl)
  | error fault =>
    refine ⟨fun _ _ hx => ?_, fun _ _ hx => ?_⟩ <;> cases hx
    exact herror fault rfl

theorem ends_forM {xs : List α} {f : α → Walk Unit} {I : WalkState → Prop} (hst : I st)
    (hf : ∀ x ∈ xs, ∀ st, I st → Ends bad (f x) st fun _ st' => I st') :
    Ends bad (xs.forM f) st fun _ st' => I st' := by
  induction xs generalizing st with
  | nil => exact ends_pure hst
  | cons x xs ih =>
    refine Ends.bind ((hf x List.mem_cons_self st hst).mono fun _ st' hst' => ?_)
    exact ih hst' fun y hy => hf y (List.mem_cons_of_mem _ hy)

end

/-! ## what leaves the scopes as they are -/

section
variable {s : Subject} {α β : Type}

theorem not_excluded_of_text {t : Table} {n : Node} {fault : Fault} (hn : n ∈ t.source.root.preorder)
    (h : t.source.text n = .error fault) : ¬ t.Excluded (.fault fault) := by
  intro hbad
  have hkind : ∃ f, fault = .undecodable f := by
    unfold SourceUnit.text at h
    cases hdecode : Utf8.decode (t.source.slice n.start n.stop) with
    | ok text =>
      rw [hdecode] at h
      cases h
    | error f =>
      rw [hdecode] at h
      cases h
      exact ⟨f, rfl⟩
  obtain ⟨f, rfl⟩ := hkind
  obtain ⟨text, htext⟩ := hbad n hn
  rw [htext] at h
  cases h

def Harmless (t : Table) (x : Walk α) : Prop :=
  ∀ st, Ends t.Excluded x st fun _ st' => st'.scopes = st.scopes

variable {t : Table} {x : Walk α}

theorem harmless_pure (a : α) : Harmless t (pure a) :=
  fun _ => ends_pure rfl

theorem Harmless.bind {f : α → Walk β} (h : Harmless t x) (hf : ∀ a, Harmless t (f a)) :
    Harmless t (x >>= f) := fun st =>
  Ends.bind ((h st).mono fun a st' hsame => (hf a st').mono fun _ _ hsame' => hsame'.trans hsame)

theorem harmless_get {f : WalkState → Walk α} (h : ∀ st, Harmless t (f st)) : Harmless t (get >>= f) :=
  fun st => Ends.bind (ends_get (h st st))

theorem harmless_addEdge (m : MethodId) : Harmless t (Subject.addEdge m) :=
  fun _ => ends_modify rfl

theorem harmless_forM {xs : List α} {f : α → Walk Unit} (h : ∀ x ∈ xs, Harmless t (f x)) :
    Harmless t (xs.forM f) := by
  intro st
  refine ends_forM (I := fun st' => st'.scopes = st.scopes) rfl fun x hx st' hsame => ?_
  exact (h x hx st').mono fun _ _ hsame' => hsame'.trans hsame

theorem harmless_lift {x : Except Fault α}
    (h : ∀ fault, x = .error fault → ¬ t.Excluded (.fault fault)) : Harmless t (Subject.lift x) :=
  fun _ => ends_lift (fun _ _ => rfl) h

section
variable (s)

theorem harmless_text {n : Node} (hn : n ∈ s.table.source.root.preorder) : Harmless s.table (s.text n) :=
  harmless_lift fun _ => not_excluded_of_text hn

theorem harmless_optionalText {n : Option Node} (hn : ∀ c ∈ n, c ∈ s.table.source.root.preorder) :
    Harmless s.table (s.optionalText n) := by
  refine harmless_lift fun fault hfault => ?_
  cases n with
  | none => cases hfault
  | some c => exact not_excluded_of_text (hn c rfl) hfault

theorem harmless_innermostClass (sc : ScopeId) : Harmless t (Subject.innermostClass sc) :=
  harmless_get fun _ => harmless_pure _

theorem harmless_resolveName (sc : ScopeId) (name : String) : Harmless s.table (s.resolveName sc name) :=
  harmless_get fun _ => harmless_pure _

theorem harmless_capturedClass (sc : ScopeId) (written : String) :
    Harmless s.table (s.capturedClass sc written) :=
  harmless_get fun _ => harmless_pure _

theorem harmless_qualifiedClass {n : Option Node} (hn : ∀ c ∈ n, c ∈ s.table.source.root.preorder)
    (sc : ScopeId) : Harmless s.table (s.qualifiedClass n sc) :=
  (harmless_optionalText s hn).bind fun _ => harmless_get fun _ => harmless_pure _

end

section
variable (s) (hfirst : s.exhaustive = false) {reason : Reason}
include hfirst

/-- an inspection that is not exhaustive halts at the first use -/
theorem ends_note (hreason : reason.isUnindexed = false) (n : Node) (st : WalkState)
    (Q : Unit → WalkState → Prop) : Ends s.table.Excluded (s.note reason n) st Q := by
  unfold Subject.note
  rw [hfirst]
  refine ⟨fun _ _ hx => ?_, fun _ _ hx => ?_⟩ <;> cases hx
  exact fun hbad => Bool.false_ne_true (hreason.symm.trans hbad)

theorem harmless_note (hreason : reason.isUnindexed = false) (n : Node) :
    Harmless s.table (s.note reason n) :=
  fun st => ends_note s hfirst hreason n st _

theorem harmless_noteIf (hreason : reason.isUnindexed = false) (n : Node) (condition : Bool) :
    Harmless s.table (if condition then s.note reason n else pure ()) := by
  split
  · exact harmless_note s hfirst hreason n
  · exact harmless_pure ()

theorem harmless_noteInherited (c : Option ClassId) {reason : String → Reason}
    (hreason : ∀ name, (reason name).isUnindexed = false) (n : Node) :
    Harmless s.table (s.noteInherited c reason n) := by
  unfold Subject.noteInherited
  split
  · exact harmless_pure ()
  · exact harmless_noteIf s hfirst (hreason _) n _

theorem harmless_checkReference (ref : Reference) (name : String) (n : Node) :
    Harmless s.table (s.checkReference ref name n) := by
  have hshadow : ∀ shadow, Harmless s.table (s.noteInherited shadow (.mayBeInherited name) n) :=
    fun shadow => harmless_noteInherited s hfirst shadow (fun _ => rfl) n
  unfold Subject.checkReference
  split
  · exact harmless_pure ()
  · exact hshadow _
  · exact hshadow _
  · exact hshadow _
  · exact hshadow _
  · exact (hshadow _).bind fun _ => harmless_noteIf s hfirst (by rfl) n _

theorem harmless_visitName {n : Node} (hn : n ∈ s.table.source.root.preorder) (sc : ScopeId) :
    Harmless s.table (s.visitName n sc) :=
  (harmless_text s hn).bind fun name => (harmless_resolveName s sc name).bind fun ref =>
    harmless_checkReference s hfirst ref name n

theorem harmless_visitCaseConstant {n : Node} (hn : n ∈ s.table.source.root.preorder) (sc : ScopeId) :
    Harmless s.table (s.visitCaseConstant n sc) := by
  refine (harmless_text s hn).bind fun name => (harmless_resolveName s sc name).bind fun ref => ?_
  split
  · exact harmless_pure ()
  · exact harmless_checkReference s hfirst ref name n

theorem harmless_visitReceiver (n : Node) (sc : ScopeId) : Harmless s.table (s.visitReceiver n sc) :=
  (harmless_innermostClass sc).bind fun _ => harmless_noteIf s hfirst (by rfl) n _

theorem harmless_checkCall (ref : Reference) (name : String) (n : Node) :
    Harmless s.table (s.checkCall ref name n) := by
  unfold Subject.checkCall
  split
  · exact harmless_noteInherited s hfirst _ (fun _ => rfl) n
  · exact harmless_noteInherited s hfirst _ (fun _ => rfl) n
  · split
    · refine (harmless_noteInherited s hfirst _ (fun _ => rfl) n).bind fun _ => ?_
      refine harmless_forM fun callee _ => ?_
      dsimp only
      split
      · exact harmless_pure ()
      · split
        · exact harmless_addEdge callee
        · exact harmless_note s hfirst rfl n
    · exact harmless_pure ()
  · exact harmless_note s hfirst rfl n
  · exact harmless_note s hfirst rfl n
  · exact harmless_note s hfirst rfl n

end

/-! ## receivers -/

section
variable (s)

theorem harmless_receiverOf {object n : Node} (hobject : object ∈ s.table.source.root.preorder)
    (sc : ScopeId) : Harmless s.table (s.receiverOf object n sc) := by
  unfold Subject.receiverOf
  split
  · exact (harmless_innermostClass sc).bind fun _ => harmless_pure _
  split
  · exact (harmless_innermostClass sc).bind fun _ => harmless_pure _
  split
  · refine (harmless_qualifiedClass s (fun c hc => ?_) sc).bind fun _ => harmless_pure _
    cases hc
    exact hobject
  split
  · refine (harmless_qualifiedClass s (fun c hc => ?_) sc).bind fun _ => harmless_pure _
    exact Node.mem_preorder_of_mem_children (Node.mem_of_child? hc) hobject
  · exact harmless_pure _

theorem harmless_receiverText {object : Node} (hobject : object ∈ s.table.source.root.preorder)
    (receiver : Subject.Receiver) : Harmless s.table (s.receiverText object receiver) := by
  refine (harmless_text s hobject).bind fun written => ?_
  split <;> exact harmless_pure _

end

/-! ## what is kept -/

/-- a walk that keeps a property of states if it runs through -/
def Maintains (t : Table) (I : WalkState → Prop) (x : Walk α) : Prop :=
  ∀ st, I st → Ends t.Excluded x st fun _ st' => I st'

section
variable {I : WalkState → Prop}

theorem maintains_pure (a : α) : Maintains t I (pure a) :=
  fun _ hst => ends_pure hst

theorem Maintains.bind {f : α → Walk β} (h : Maintains t I x) (hf : ∀ a, Maintains t I (f a)) :
    Maintains t I (x >>= f) :=
  fun st hst => Ends.bind ((h st hst).mono fun a st' hst' => hf a st' hst')

theorem maintains_get {f : WalkState → Walk α} (h : ∀ st, Maintains t I (f st)) :
    Maintains t I (get >>= f) :=
  fun st hst => Ends.bind (ends_get (h st st hst))

theorem maintains_forM {xs : List α} {f : α → Walk Unit} (h : ∀ x ∈ xs, Maintains t I (f x)) :
    Maintains t I (xs.forM f) :=
  fun _ hst => ends_forM hst h

theorem Harmless.maintains (hscopes : ∀ st st', st'.scopes = st.scopes → I st → I st') (h : Harmless t x) :
    Maintains t I x :=
  fun st hst => (h st).mono fun _ st' hsame => hscopes st st' hsame hst

end

/-! ## constructs with parts -/

section
variable (s) (hfirst : s.exhaustive = false) {I : WalkState → Prop}
  (hscopes : ∀ st st', st'.scopes = st.scopes → I st → I st') {go : Subject.Onward} {n : Node}
  (hn : n ∈ s.table.source.root.preorder) {sc : ScopeId}
include hfirst hscopes hn

theorem maintains_visitFieldAccess
    (hobject : ∀ object, n.child? "object" = some object → n.childKind "field" ≠ "this" →
      Maintains s.table I (go (.code object sc))) :
    Maintains s.table I (s.visitFieldAccess go n sc) := by
  unfold Subject.visitFieldAccess
  split
  · rename_i object field hchild hfield
    have htree := Node.mem_preorder_of_mem_children (Node.mem_of_child? hchild) hn
    split
    · have hqualified : Harmless s.table (s.qualifiedClass (some object) sc) :=
        harmless_qualifiedClass s (fun c hc => by cases hc; exact htree) sc
      refine (hqualified.bind fun c => ?_).maintains hscopes
      split
      · exact (harmless_text s hn).bind fun _ => harmless_note s hfirst rfl n
      · exact harmless_pure ()
    · rename_i hthis
      refine ((harmless_receiverOf s htree sc).maintains hscopes).bind fun receiver => ?_
      split
      · refine hobject object hchild fun hkind => hthis ?_
        rw [Node.childKind, hfield] at hkind
        exact beq_iff_eq.mpr hkind
      · refine Harmless.maintains hscopes ?_
        exact (harmless_text s hn).bind fun _ => harmless_note s hfirst rfl n
      · refine Harmless.maintains hscopes ?_
        split
        · exact (harmless_receiverText s htree _).bind fun _ => harmless_note s hfirst rfl n
        · exact harmless_pure ()
  · rw [Subject.reject_eq_note hfirst]
    exact (harmless_note s hfirst rfl n).maintains hscopes

theorem maintains_visitInvocation (hparts : ∀ part ∈ n.children, Maintains s.table I (go (.code part sc))) :
    Maintains s.table I (s.visitInvocation go n sc) := by
  have hname : Harmless s.table (s.optionalText (n.child? "name")) :=
    harmless_optionalText s fun c hc => Node.mem_preorder_of_mem_children (Node.mem_of_child? hc) hn
  refine (hname.maintains hscopes).bind fun name => Maintains.bind ?_ fun _ => ?_
  · unfold Subject.visitCallee
    split
    · refine maintains_get fun st => ?_
      exact (harmless_checkCall s hfirst _ name n).maintains hscopes
    · rename_i object hchild
      have hmem := Node.mem_of_child? hchild
      have htree := Node.mem_preorder_of_mem_children hmem hn
      refine ((harmless_receiverOf s htree sc).maintains hscopes).bind fun receiver => ?_
      split
      · exact hparts object hmem
      · exact (harmless_note s hfirst rfl n).maintains hscopes
      · refine Harmless.maintains hscopes ?_
        split
        · exact (harmless_receiverText s htree _).bind fun _ => harmless_note s hfirst rfl n
        · exact harmless_pure ()
  · cases hchild : n.child? "arguments" with
    | none => exact maintains_pure ()
    | some arguments => exact hparts arguments (Node.mem_of_child? hchild)

theorem maintains_visitMethodReference
    (hparts : ∀ part ∈ n.children, Maintains s.table I (go (.code part sc))) :
    Maintains s.table I (s.visitMethodReference go n sc) := by
  unfold Subject.visitMethodReference
  split
  · exact (harmless_note s hfirst rfl n).maintains hscopes
  · rename_i target others hnamed
    have hmem : target ∈ n.children :=
      (List.mem_filter.mp (show target ∈ n.namedChildren from hnamed ▸ List.mem_cons_self)).1
    have htree := Node.mem_preorder_of_mem_children hmem hn
    split
    · exact (harmless_visitReceiver s hfirst target sc).maintains hscopes
    split
    · rename_i hthis
      refine maintains_visitFieldAccess s hfirst hscopes htree fun object _ hno => ?_
      exact absurd (beq_iff_eq.mp (Bool.and_eq_true_iff.mp hthis).2) hno
    split
    · have hqualified : Harmless s.table (s.qualifiedClass (some target) sc) :=
        harmless_qualifiedClass s (fun c hc => by cases hc; exact htree) sc
      refine (hqualified.bind fun c => ?_).maintains hscopes
      split
      · exact (harmless_text s hn).bind fun _ => harmless_note s hfirst rfl n
      · exact harmless_pure ()
    split
    · refine ((harmless_text s htree).maintains hscopes).bind fun written => ?_
      split
      · refine Harmless.maintains hscopes ((harmless_capturedClass s sc written).bind fun c => ?_)
        split
        · exact harmless_note s hfirst rfl n
        · exact harmless_pure ()
      split
      · exact maintains_pure ()
      split
      · exact (harmless_visitName s hfirst htree sc).maintains hscopes
      · exact hparts target hmem
    · exact hparts target hmem

theorem maintains_visitOuterInstance
    (hqualifier : ∀ q ∈ n.namedChildren, Subject.isQualifier q = true →
      Maintains s.table I (go (.code q sc))) :
    Maintains s.table I (s.visitOuterInstance go n sc) := by
  unfold Subject.visitOuterInstance
  split
  · rename_i qualifier hfound
    split
    · refine Harmless.maintains hscopes ((harmless_innermostClass sc).bind fun c => ?_)
      exact harmless_noteIf s hfirst rfl n _
    · exact hqualifier qualifier (List.mem_of_find?_eq_some hfound) (List.find?_some hfound)
  · have htype : Harmless s.table (s.optionalText (n.child? "type")) :=
      harmless_optionalText s fun c hc => Node.mem_preorder_of_mem_children (Node.mem_of_child? hc) hn
    refine Harmless.maintains hscopes (htype.bind fun written => ?_)
    refine (harmless_capturedClass s sc written).bind fun c => ?_
    split
    · exact harmless_note s hfirst rfl n
    · exact harmless_pure ()

end

/-- parts of the level that the plan is carried out in, and classes there -/
theorem maintains_visitSteps {I : WalkState → Prop} {go : Subject.Onward} {sc : ScopeId}
    {steps : List Step}
    (hparts : ∀ part place, .visit part place ∈ steps →
      place = .here ∧ Maintains s.table I (go (.code part sc)))
    (hclasses : ∀ creation body, .anonymousClass creation body ∈ steps →
      Maintains s.table I (s.visitAnonymousClass go creation))
    (hothers : ∀ step ∈ steps, (∃ part place, step = .visit part place) ∨
      ∃ creation body, step = .anonymousClass creation body) :
    Maintains s.table I (s.visitSteps go sc sc steps) := by
  induction steps with
  | nil => exact maintains_pure ()
  | cons step rest ih =>
    have hrest : Maintains s.table I (s.visitSteps go sc sc rest) :=
      ih (fun part place hmem => hparts part place (List.mem_cons_of_mem _ hmem))
        (fun creation body hmem => hclasses creation body (List.mem_cons_of_mem _ hmem))
        fun step hstep => hothers step (List.mem_cons_of_mem _ hstep)
    rcases hothers step List.mem_cons_self with ⟨part, place, rfl⟩ | ⟨creation, body, rfl⟩
    · obtain ⟨rfl, hpart⟩ := hparts part place List.mem_cons_self
      exact hpart.bind fun _ => hrest
    · exact (hclasses creation body List.mem_cons_self).bind fun _ => hrest

end

end StaticPromotion
