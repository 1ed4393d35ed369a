import StaticPromotion.Fault
import StaticPromotion.Trace
import StaticPromotion.Proofs.Runs

/-!
# How phases nest in a trace

A trace is written one entry at a time, by steps that know only the phases open at that moment. What comes out is a nesting:
inside a phase stand plain entries and whole phases, each whole phase from its start to its end.

* `Trace.Nested parent place entries`   the entries, the first at `place`, nest inside the phase `parent`;
* `Trace.Balances t t'`   `t'` continues `t` by entries that nest, and the same phases are open;
* `Trace.Leaves t t'`     `t'` continues `t`, and may have left phases open on the way;
* `Trace.Leaves.closed`   closing all phases first ends those that were left open;
* `Trace.Tracks`          a step balances when it returns, and leaves phases open when it stops with a fault.
-/

namespace StaticPromotion

/-- an event that neither starts nor ends a phase -/
def Event.isPlain : Event → Bool
  | .phaseStart _ _ | .phaseEnd => false
  | .inspection _ _ _ | .resolverPass _ _ _ | .mutation _ _ _ | .warning _ => true

namespace Trace

/-! ## nesting -/

/-- Entries that nest inside the phase `parent`, the first of them at `place`. The parent of a plain entry, and of a phase's
start, is the phase around it; the parent of a phase's end is the place of its start. -/
inductive Nested : Option Nat → Nat → List Entry → Prop
  | nil {parent : Option Nat} {place : Nat} : Nested parent place []
  | plain {parent : Option Nat} {place : Nat} {event : Event} {others : List Entry}
      (hplain : event.isPlain = true) (hothers : Nested parent (place + 1) others) :
      Nested parent place (⟨event, parent⟩ :: others)
  | phase {parent : Option Nat} {place : Nat} {name detail : String} {inside others : List Entry}
      (hinside : Nested (some place) (place + 1) inside)
      (hothers : Nested parent (place + inside.length + 2) others) :
      Nested parent place
        (⟨.phaseStart name detail, parent⟩ :: inside ++ ⟨.phaseEnd, some place⟩ :: others)

theorem Nested.append {parent : Option Nat} {place : Nat} {as bs : List Entry}
    (has : Nested parent place as) (hbs : Nested parent (place + as.length) bs) :
    Nested parent place (as ++ bs) := by
  induction has with
  | nil => exact hbs
  | @plain _ place event others hplain _ ih =>
    refine .plain hplain (ih ?_)
    rwa [List.length_cons, show place + (others.length + 1) = place + 1 + others.length by omega] at hbs
  | @phase parent place name detail inside others hinside _ _ ih =>
    have hlength : place + (⟨.phaseStart name detail, parent⟩ :: inside ++
        ⟨.phaseEnd, some place⟩ :: others : List Entry).length =
        place + inside.length + 2 + others.length := by
      simp only [List.cons_append, List.length_cons, List.length_append]
      omega
    rw [hlength] at hbs
    rw [List.append_assoc]
    exact .phase hinside (ih hbs)

theorem Nested.isSome_parent {parent : Option Nat} {place : Nat} {entries : List Entry}
    (h : Nested parent place entries) (hparent : parent.isSome = true) :
    ∀ e ∈ entries, e.parent.isSome = true := by
  induction h with
  | nil => exact fun _ he => absurd he List.not_mem_nil
  | plain _ _ ih =>
    intro e he
    rcases List.mem_cons.mp he with rfl | he
    · exact hparent
    · exact ih hparent e he
  | phase _ _ ihinside ih =>
    intro e he
    rcases List.mem_append.mp he with he | he
    · rcases List.mem_cons.mp he with rfl | he
      · exact hparent
      · exact ihinside rfl e he
    · rcases List.mem_cons.mp he with rfl | he
      · rfl
      · exact ih hparent e he

/-! ## continuations that balance -/

structure Balances (t t' : Trace) : Prop where
  openPhases : t'.openPhases = t.openPhases
  entries : ∃ added, t'.entries.toList = t.entries.toList ++ added ∧
    Nested t.openPhases.head? t.entries.size added

theorem Balances.refl (t : Trace) : t.Balances t :=
  ⟨rfl, [], (List.append_nil _).symm, .nil⟩

theorem Balances.trans {t₁ t₂ t₃ : Trace} (h : t₁.Balances t₂) (h' : t₂.Balances t₃) : t₁.Balances t₃ := by
  obtain ⟨hopen, added, hentries, hnested⟩ := h
  obtain ⟨hopen', added', hentries', hnested'⟩ := h'
  refine ⟨hopen'.trans hopen, added ++ added', ?_, hnested.append ?_⟩
  · rw [hentries', hentries, List.append_assoc]
  · have hsize : t₂.entries.size = t₁.entries.size + added.length := by
      rw [← Array.length_toList, hentries, List.length_append, Array.length_toList]
    rwa [hopen, hsize] at hnested'

theorem balances_record (t : Trace) {event : Event} (hplain : event.isPlain = true) :
    t.Balances (t.record event) :=
  ⟨rfl, [⟨event, t.openPhases.head?⟩], Array.toList_push, .plain hplain .nil⟩

/-- a phase with what balances inside it balances as a whole -/
theorem Balances.endPhase {t t' : Trace} {name detail : String}
    (h : (t.startPhase name detail).Balances t') : t.Balances t'.endPhase := by
  obtain ⟨hopen, inside, hentries, hnested⟩ := h
  have hended : t'.endPhase =
      { t'.add .phaseEnd (some t.entries.size) with openPhases := t.openPhases } := by
    rw [Trace.endPhase, hopen]
    rfl
  have hstarted : (t.startPhase name detail).entries.size = t.entries.size + 1 := Array.size_push _
  rw [hstarted] at hnested
  let whole : List Entry :=
    ⟨.phaseStart name detail, t.openPhases.head?⟩ :: inside ++ [⟨.phaseEnd, some t.entries.size⟩]
  refine ⟨by rw [hended], whole, ?_, .phase hnested .nil⟩
  rw [hended]
  show (t'.entries.push _).toList = _
  rw [Array.toList_push, hentries]
  show (t.entries.push _).toList ++ inside ++ _ = _
  rw [Array.toList_push, List.append_assoc, List.append_assoc]
  rfl

/-! ## continuations that leave phases open -/

inductive Leaves : Trace → Trace → Prop
  | balanced {t t' : Trace} (h : t.Balances t') : Leaves t t'
  | opened {t t₁ t' : Trace} {name detail : String} (h : t.Balances t₁)
      (h' : Leaves (t₁.startPhase name detail) t') : Leaves t t'

theorem Balances.leaves {t₁ t₂ t₃ : Trace} (h : t₁.Balances t₂) (h' : t₂.Leaves t₃) : t₁.Leaves t₃ := by
  cases h' with
  | balanced hrest => exact .balanced (h.trans hrest)
  | opened hrest hopened => exact .opened (h.trans hrest) hopened

theorem Leaves.balances {t₁ t₂ t₃ : Trace} (h : t₁.Leaves t₂) (h' : t₂.Balances t₃) : t₁.Leaves t₃ := by
  induction h with
  | balanced hbalanced => exact .balanced (hbalanced.trans h')
  | opened hbefore _ ih => exact .opened hbefore (ih h')

theorem closePhases_of_cons {t : Trace} {phase : Nat} {outer : List Nat}
    (h : t.openPhases = phase :: outer) : t.closePhases = t.endPhase.closePhases := by
  have hended : t.endPhase.openPhases = outer := by
    rw [Trace.endPhase, h]
  rw [closePhases, h, List.foldl_cons, closePhases, hended]

theorem Leaves.closed {t t' : Trace} (h : t.Leaves t') :
    ∃ t₁, t.Balances t₁ ∧ t'.closePhases = t₁.closePhases := by
  induction h with
  | @balanced _ t' hbalanced => exact ⟨t', hbalanced, rfl⟩
  | opened hbefore _ ih =>
    obtain ⟨t₂, hbalanced, hclosed⟩ := ih
    -- what was left open inside is closed, and the phase itself comes next
    refine ⟨t₂.endPhase, hbefore.trans hbalanced.endPhase, ?_⟩
    rw [hclosed]
    exact closePhases_of_cons hbalanced.openPhases

/-! ## plain events one after the other -/

def recordAll (t : Trace) (events : List Event) : Trace :=
  events.foldl record t

theorem balances_recordAll (t : Trace) {events : List Event}
    (hplain : ∀ e ∈ events, e.isPlain = true) : t.Balances (t.recordAll events) := by
  induction events generalizing t with
  | nil => exact .refl t
  | cons e events ih =>
    have hfirst := balances_record t (hplain e List.mem_cons_self)
    exact hfirst.trans (ih _ fun e' he' => hplain e' (List.mem_cons_of_mem _ he'))

theorem recordAll_append (t : Trace) (as bs : List Event) :
    t.recordAll (as ++ bs) = (t.recordAll as).recordAll bs :=
  List.foldl_append

/-- the plain events of a trace, in order -/
def notes (t : Trace) : List Event :=
  (t.entries.toList.map (·.event)).filter (·.isPlain)

theorem notes_add (t : Trace) (event : Event) (parent : Option Nat) :
    (t.add event parent).notes = t.notes ++ [event].filter (·.isPlain) := by
  show ((t.entries.push _).toList.map _).filter _ = _
  rw [Array.toList_push, List.map_append, List.filter_append]
  rfl

@[simp] theorem notes_startPhase (t : Trace) (name detail : String) :
    (t.startPhase name detail).notes = t.notes := by
  show (t.add (.phaseStart name detail) t.openPhases.head?).notes = t.notes
  rw [notes_add]
  exact List.append_nil _

@[simp] theorem notes_endPhase (t : Trace) : t.endPhase.notes = t.notes := by
  rw [endPhase]
  split
  · rfl
  · rename_i phase outer _
    show (t.add .phaseEnd (some phase)).notes = t.notes
    rw [notes_add]
    exact List.append_nil _

theorem notes_record (t : Trace) {event : Event} (hplain : event.isPlain = true) :
    (t.record event).notes = t.notes ++ [event] := by
  rw [record, notes_add, List.filter_cons_of_pos hplain, List.filter_nil]

theorem notes_recordAll (t : Trace) {events : List Event}
    (hplain : ∀ e ∈ events, e.isPlain = true) : (t.recordAll events).notes = t.notes ++ events := by
  induction events generalizing t with
  | nil => exact (List.append_nil _).symm
  | cons e events ih =>
    have hothers := ih (t.record e) fun e' he' => hplain e' (List.mem_cons_of_mem _ he')
    rw [notes_record t (hplain e List.mem_cons_self)] at hothers
    rw [← List.singleton_append, ← List.append_assoc]
    exact hothers

/-! ## steps that write a trace -/

section
variable {σ α β : Type} (trace : σ → Trace)

/-- what a step that began with the trace `t` has made of it -/
def Tracks (t : Trace) : EStateM.Result Fault σ α → Prop
  | .ok _ s => t.Balances (trace s)
  | .error _ s => t.Leaves (trace s)

variable {trace} {t t' : Trace}

theorem Balances.tracks (h : t.Balances t') {result : EStateM.Result Fault σ α}
    (h' : Tracks trace t' result) : Tracks trace t result := by
  cases result with
  | ok a s => exact h.trans h'
  | error e s => exact h.leaves h'

section
variable {x : EStateM Fault σ α} {f : α → EStateM Fault σ β} {s : σ}

theorem Tracks.bind_within (h : Tracks trace t' (x s)) (hleaves : ∀ t'', t'.Leaves t'' → t.Leaves t'')
    (hnext : ∀ a s₁, t'.Balances (trace s₁) → Tracks trace t (f a s₁)) : Tracks trace t ((x >>= f) s) := by
  cases hx : x s with
  | ok a s₁ =>
    rw [hx] at h
    rw [Run.bind_of_ok hx]
    exact hnext a s₁ h
  | error e s₁ =>
    rw [hx] at h
    rw [Run.bind_of_error hx]
    exact hleaves _ h

theorem Tracks.bind (h : Tracks trace t (x s)) (hnext : ∀ a s₁, t.Balances (trace s₁) → Tracks trace t (f a s₁)) :
    Tracks trace t ((x >>= f) s) :=
  h.bind_within (fun _ h => h) hnext

/-- a phase that is left open by a fault inside it -/
theorem Tracks.inPhase {name detail : String} (h : Tracks trace (t.startPhase name detail) (x s))
    (hnext : ∀ a s₁, (t.startPhase name detail).Balances (trace s₁) → Tracks trace t (f a s₁)) :
    Tracks trace t ((x >>= f) s) :=
  h.bind_within (fun _ h => .opened (.refl t) h) hnext

end

theorem tracks_forM {xs : List β} {f : β → EStateM Fault σ Unit}
    (h : ∀ x ∈ xs, ∀ s, Tracks trace (trace s) (f x s)) (s : σ) : Tracks trace (trace s) (xs.forM f s) := by
  induction xs generalizing s with
  | nil => exact Balances.refl _
  | cons x xs ih =>
    refine (h x List.mem_cons_self s).bind fun _ s₁ hfirst => ?_
    exact hfirst.tracks (ih (fun y hy => h y (List.mem_cons_of_mem _ hy)) s₁)

end

end Trace

end StaticPromotion
