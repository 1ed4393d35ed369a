import StaticPromotion.Proofs.Bracketing

/-!
# The phases that any use of a trace leaves open

Phases are started and ended, closed all at once and filled with plain events in any order, and an end may come without
a start. Which end belongs to which start is said here by the events alone: between the two as many phases end as start,
and none ends before it starts. What a trace keeps as it grows, the list of open phases and the parent of each entry,
always agrees with that.

* `Event.Balanced events`    whole phases and plain events, one after the other;
* `Event.Ends events i j`    the phase that starts at place `i` ends at place `j`;
* `Event.Unended events i`   a phase starts at place `i` and does not end: from there on the depth never falls below zero;
* `Event.Leaving events phases`   between the starts of `phases`, and behind the last, the events are balanced;
* `Trace.calls_nest`         what holds after any calls.
-/

namespace StaticPromotion

namespace Event

variable {es before inside more : List Event} {phases : List Nat} {i j k : Nat} {name detail : String}

/-! ## balanced events -/

/-- how many phases start, less those that end -/
def depth : List Event → Int
  | [] => 0
  | .phaseStart _ _ :: es => depth es + 1
  | .phaseEnd :: es => depth es - 1
  | _ :: es => depth es

theorem depth_append (as bs : List Event) : depth (as ++ bs) = depth as + depth bs := by
  fun_induction depth as <;> grind [depth]

def Balanced (events : List Event) : Prop :=
  depth events = 0 ∧ ∀ k, 0 ≤ depth (events.take k)

theorem balanced_nil : Balanced [] :=
  ⟨rfl, fun k => by rw [List.take_nil]; exact Int.le_refl 0⟩

theorem balanced_plain {e : Event} (hplain : e.isPlain = true) : Balanced [e] := by
  have hdepth : depth [e] = 0 := by
    cases e with
    | phaseStart _ _ | phaseEnd => cases hplain
    | _ => rfl
  refine ⟨hdepth, fun k => ?_⟩
  cases k with
  | zero => exact Int.le_refl 0
  | succ k =>
    rw [List.take_succ_cons, List.take_nil]
    exact Int.le_of_eq hdepth.symm

theorem Balanced.phase (h : Balanced inside) (name detail : String) :
    Balanced (.phaseStart name detail :: inside ++ [.phaseEnd]) := by
  refine ⟨by rw [depth_append, depth, h.1]; rfl, fun k => ?_⟩
  cases k with
  | zero => exact Int.le_refl 0
  | succ k =>
    have hend : ∀ m, -1 ≤ depth ([Event.phaseEnd].take m) := by
      intro m
      cases m <;> simp [depth]
    have hinside := h.2 k
    have hlast := hend (k - inside.length)
    rw [List.cons_append, List.take_succ_cons, depth, List.take_append, depth_append]
    omega

theorem Balanced.append (h : Balanced es) (hmore : Balanced more) : Balanced (es ++ more) := by
  refine ⟨by rw [depth_append, h.1, hmore.1]; rfl, fun k => ?_⟩
  rw [List.take_append, depth_append]
  exact Int.add_nonneg (h.2 k) (hmore.2 _)

/-! ## where a phase ends -/

def Starts (events : List Event) (i : Nat) : Prop :=
  ∃ name detail, events[i]? = some (.phaseStart name detail)

def Ends (events : List Event) (i j : Nat) : Prop :=
  i < j ∧ Starts events i ∧ events[j]? = some .phaseEnd ∧ Balanced ((events.take j).drop (i + 1))

def Unended (events : List Event) (i : Nat) : Prop :=
  Starts events i ∧ ∀ j, ¬ Ends events i j

theorem Starts.lt (h : Starts es i) : i < es.length := by
  obtain ⟨_, _, h⟩ := h
  exact (List.getElem?_eq_some_iff.mp h).1

theorem starts_append (h : i < es.length) : Starts (es ++ more) i ↔ Starts es i := by
  rw [Starts, List.getElem?_append_left h, Starts]

theorem Ends.append (h : Ends es i j) : Ends (es ++ more) i j := by
  obtain ⟨hbehind, hstarts, hends, hbetween⟩ := h
  have hlt := (List.getElem?_eq_some_iff.mp hends).1
  refine ⟨hbehind, (starts_append hstarts.lt).mpr hstarts, ?_, ?_⟩
  · rw [List.getElem?_append_left hlt]
    exact hends
  · rw [List.take_append_of_le_length (Nat.le_of_lt hlt)]
    exact hbetween

theorem depth_behind_succ (hi : i < es.length) (hk : i < k) :
    depth ((es.take (k + 1)).drop (i + 1)) = depth ((es.take k).drop (i + 1)) + depth es[k]?.toList := by
  rw [List.take_add_one, List.drop_append_of_le_length, depth_append]
  rw [List.length_take]
  omega

theorem unended_iff : Unended es i ↔ Starts es i ∧ ∀ k, 0 ≤ depth ((es.take k).drop (i + 1)) := by
  refine and_congr_right fun hstarts => ⟨fun hopen k => ?_, fun hdepth j hends => ?_⟩
  · induction k using Nat.strongRecOn with
    | ind k ih =>
      rcases Nat.lt_or_ge (i + 1) k with hlt | hge
      · obtain ⟨k, rfl⟩ : ∃ k', k = k' + 1 := ⟨k - 1, by omega⟩
        rw [depth_behind_succ hstarts.lt (by omega)]
        have hbefore := ih k (by omega)
        -- the first end with balanced events in front of it would be the end of the phase
        have hend : es[k]? = some .phaseEnd → depth ((es.take k).drop (i + 1)) ≠ 0 := by
          refine fun hk hzero => hopen k ⟨by omega, hstarts, hk, hzero, fun m => ?_⟩
          rw [List.take_drop, List.take_take]
          exact ih _ (by omega)
        cases hk : es[k]? with
        | none => simpa [depth] using hbefore
        | some e =>
          cases e with
          | phaseEnd =>
            have hpositive := hend hk
            simp only [Option.toList_some, depth]
            omega
          | _ =>
            simp only [Option.toList_some, depth]
            omega
      · rw [List.drop_eq_nil_of_le (by rw [List.length_take]; omega)]
        exact Int.le_refl 0
  · have hnext := hdepth (j + 1)
    rw [depth_behind_succ hstarts.lt hends.1, hends.2.2.1, hends.2.2.2.1] at hnext
    exact absurd hnext (by decide)

/-! ## what is left open -/

inductive Leaving : List Event → List Nat → Prop
  | balanced {es : List Event} (h : Balanced es) : Leaving es []
  | opened {before inside : List Event} {outer : List Nat} (name detail : String)
      (hbefore : Leaving before outer) (hinside : Balanced inside) :
      Leaving (before ++ .phaseStart name detail :: inside) (before.length :: outer)

theorem Leaving.append (h : Leaving es phases) (hmore : Balanced more) : Leaving (es ++ more) phases := by
  cases h with
  | balanced h => exact .balanced (h.append hmore)
  | opened name detail hbefore hinside =>
    rw [List.append_assoc]
    exact .opened name detail hbefore (hinside.append hmore)

theorem Leaving.isBalanced (h : Leaving es []) : Balanced es := by
  cases h with
  | balanced h => exact h

/-- an end belongs to the innermost phase that is left open -/
theorem Leaving.ended (h : Leaving es (i :: phases)) :
    Leaving (es ++ [.phaseEnd]) phases ∧ Ends (es ++ [.phaseEnd]) i es.length := by
  cases h with
  | @opened before inside outer name detail hbefore hinside =>
    refine ⟨?_, by simp, ⟨name, detail, by simp⟩, List.getElem?_concat_length, ?_⟩
    · rw [List.append_assoc]
      exact hbefore.append (hinside.phase name detail)
    · rw [List.take_left, List.drop_length_add_append]
      exact hinside

/-- a phase that starts in balanced events ends there -/
theorem not_unended_of_balanced (before : List Event) (h : Balanced inside) (hi : before.length ≤ i) :
    ¬ Unended (before ++ inside) i := by
  intro hopen
  obtain ⟨⟨name, detail, hstarts⟩, hdepth⟩ := unended_iff.mp hopen
  obtain ⟨m, rfl⟩ := Nat.exists_eq_add_of_le hi
  rw [List.getElem?_append_right hi, Nat.add_sub_cancel_left] at hstarts
  have hbehind := hdepth (before ++ inside).length
  rw [List.take_length, Nat.add_assoc, List.drop_length_add_append] at hbehind
  have hwhole := congrArg depth (List.take_append_drop (m + 1) inside)
  rw [depth_append, List.take_add_one, hstarts, depth_append, h.1, Option.toList_some, depth, depth] at hwhole
  have hbefore := h.2 m
  omega

theorem unended_opened (hinside : Balanced inside) :
    Unended (before ++ .phaseStart name detail :: inside) i ↔ i = before.length ∨ Unended before i := by
  constructor
  · intro hopen
    rcases Nat.lt_trichotomy i before.length with hlt | heq | hgt
    · exact .inr ⟨(starts_append hlt).mp hopen.1, fun j hj => hopen.2 j hj.append⟩
    · exact .inl heq
    · rw [List.append_cons] at hopen
      exact absurd hopen (not_unended_of_balanced _ hinside (by rw [List.length_append]; exact hgt))
  · rintro (rfl | hopen)
    · refine unended_iff.mpr ⟨⟨name, detail, by simp⟩, fun k => ?_⟩
      rw [List.drop_take, List.drop_length_add_append]
      exact hinside.2 _
    · obtain ⟨hstarts, hdepth⟩ := unended_iff.mp hopen
      refine unended_iff.mpr ⟨(starts_append hstarts.lt).mpr hstarts, fun k => ?_⟩
      rcases Nat.le_total k before.length with hle | hge
      · rw [List.take_append_of_le_length hle]
        exact hdepth k
      · obtain ⟨m, rfl⟩ := Nat.exists_eq_add_of_le hge
        have hi : i + 1 ≤ before.length := hstarts.lt
        have hbefore := hdepth before.length
        rw [List.take_length] at hbefore
        rw [List.take_length_add_append, List.drop_append_of_le_length hi, depth_append]
        cases m with
        | zero => exact Int.add_nonneg hbefore (Int.le_refl 0)
        | succ m =>
          have hmore := hinside.2 m
          rw [List.take_succ_cons, depth]
          omega

theorem Leaving.mem_iff (h : Leaving es phases) (i : Nat) : i ∈ phases ↔ Unended es i := by
  induction h with
  | balanced h => exact iff_of_false List.not_mem_nil (not_unended_of_balanced [] h (Nat.zero_le i))
  | opened name detail _ hinside ih => rw [List.mem_cons, ih, unended_opened hinside]

theorem Leaving.pairwise (h : Leaving es phases) : phases.Pairwise (· > ·) := by
  induction h with
  | balanced _ => exact .nil
  | opened _ _ hbefore _ ih => exact .cons (fun i hi => ((hbefore.mem_iff i).mp hi).1.lt) ih

/-- the phase inside which the next event would stand -/
def Innermost (events : List Event) : Option Nat → Prop
  | none => ∀ i, ¬ Unended events i
  | some i => Unended events i ∧ ∀ j, Unended events j → j ≤ i

theorem Leaving.innermost (h : Leaving es phases) : Innermost es phases.head? := by
  cases phases with
  | nil => exact fun i hi => List.not_mem_nil ((h.mem_iff i).mpr hi)
  | cons i outer =>
    refine ⟨(h.mem_iff i).mp List.mem_cons_self, fun j hj => ?_⟩
    rcases List.mem_cons.mp ((h.mem_iff j).mpr hj) with rfl | hj
    · exact Nat.le_refl _
    · exact Nat.le_of_lt ((List.pairwise_cons.mp h.pairwise).1 j hj)

end Event

namespace Trace

open Event

/-! ## traces -/

def events (t : Trace) : List Event :=
  t.entries.toList.map (·.event)

/-- the parent of an entry is the innermost phase open before it, and an end has one, which it ends -/
def Links (t : Trace) (k : Nat) (e : Entry) : Prop :=
  Innermost (t.events.take k) e.parent ∧
    (e.event = .phaseEnd → ∃ i, e.parent = some i ∧ Ends t.events i k)

/-- what every call keeps -/
structure WellKept (t : Trace) : Prop where
  leaving : Leaving t.events t.openPhases
  links : ∀ k e, t.entries[k]? = some e → t.Links k e

variable {t : Trace}

theorem length_events (t : Trace) : t.events.length = t.entries.size := by
  rw [events, List.length_map, Array.length_toList]

/-- one entry more, whose parent is the innermost open phase -/
theorem WellKept.add (h : t.WellKept) {event : Event} {phases : List Nat}
    (hleaving : Leaving (t.events ++ [event]) phases)
    (hended : event = .phaseEnd →
      ∃ i, t.openPhases.head? = some i ∧ Ends (t.events ++ [event]) i t.events.length) :
    WellKept { t.add event t.openPhases.head? with openPhases := phases } := by
  have hevents : events { t.add event t.openPhases.head? with openPhases := phases } =
      t.events ++ [event] := by
    simp [events, Trace.add]
  refine ⟨hevents ▸ hleaving, fun k e hk => ?_⟩
  rw [Links, hevents]
  rw [show ({ t.add event t.openPhases.head? with openPhases := phases } : Trace).entries =
    t.entries.push ⟨event, t.openPhases.head?⟩ from rfl, Array.getElem?_push] at hk
  split at hk
  · rename_i hlast
    cases hk
    rw [hlast, ← length_events, List.take_left]
    exact ⟨h.leaving.innermost, hended⟩
  · have hlt : k < t.events.length := by
      rw [length_events]
      exact (Array.getElem?_eq_some_iff.mp hk).1
    obtain ⟨hparent, hends⟩ := h.links k e hk
    rw [List.take_append_of_le_length (Nat.le_of_lt hlt)]
    refine ⟨hparent, fun he => ?_⟩
    obtain ⟨i, hi, hends⟩ := hends he
    exact ⟨i, hi, hends.append⟩

theorem WellKept.record (h : t.WellKept) {event : Event} (hplain : event.isPlain = true) :
    (t.record event).WellKept := by
  refine h.add (h.leaving.append (balanced_plain hplain)) fun hend => ?_
  rw [hend] at hplain
  cases hplain

theorem WellKept.startPhase (h : t.WellKept) (name detail : String) :
    (t.startPhase name detail).WellKept := by
  refine h.add ?_ (by simp)
  rw [← length_events]
  exact .opened name detail h.leaving balanced_nil

theorem WellKept.endPhase (h : t.WellKept) : t.endPhase.WellKept := by
  cases hopen : t.openPhases with
  | nil =>
    rw [Trace.endPhase, hopen]
    exact h
  | cons phase outer =>
    obtain ⟨hleaving, hends⟩ := (hopen ▸ h.leaving).ended
    have hadd := h.add hleaving fun _ => ⟨phase, by rw [hopen, List.head?_cons], hends⟩
    rw [hopen] at hadd
    rw [Trace.endPhase, hopen]
    exact hadd

theorem closePhases_of_nil (h : t.openPhases = []) : t.closePhases = t := by
  rw [closePhases, h, List.foldl_nil]

theorem WellKept.closePhases (h : t.WellKept) : t.closePhases.WellKept ∧ t.closePhases.openPhases = [] := by
  induction hopen : t.openPhases generalizing t with
  | nil =>
    rw [closePhases_of_nil hopen]
    exact ⟨h, hopen⟩
  | cons phase outer ih =>
    rw [closePhases_of_cons hopen]
    exact ih h.endPhase (by rw [Trace.endPhase, hopen])

/-! ## calls -/

inductive Call where
  | startPhase (name detail : String)
  | endPhase
  | closePhases
  | log (event : Event) (hplain : event.isPlain = true)

def Call.apply (t : Trace) : Call → Trace
  | .startPhase name detail => t.startPhase name detail
  | .endPhase => t.endPhase
  | .closePhases => t.closePhases
  | .log event _ => t.record event

/-- what a call adds to a trace with so many open phases -/
def Call.writes (openPhases : Nat) : Call → List Event
  | .startPhase name detail => [.phaseStart name detail]
  | .endPhase => if openPhases = 0 then [] else [.phaseEnd]
  | .closePhases => .replicate openPhases .phaseEnd
  | .log event _ => [event]

/-- the trace after calls, from none -/
def after (calls : List Call) : Trace :=
  calls.foldl Call.apply {}

theorem WellKept.apply (h : t.WellKept) (call : Call) : (call.apply t).WellKept := by
  cases call with
  | startPhase name detail => exact h.startPhase name detail
  | endPhase => exact h.endPhase
  | closePhases => exact h.closePhases.1
  | log event hplain => exact h.record hplain

theorem wellKept_after (calls : List Call) : (after calls).WellKept := by
  have hrun : ∀ t : Trace, t.WellKept → (calls.foldl Call.apply t).WellKept := by
    induction calls with
    | nil => exact fun t h => h
    | cons call calls ih => exact fun t h => ih _ (h.apply call)
  exact hrun {} ⟨.balanced balanced_nil, fun k e hk => by simp at hk⟩

theorem events_endPhase (t : Trace) :
    t.endPhase.events = t.events ++ if t.openPhases.length = 0 then [] else [.phaseEnd] := by
  cases hopen : t.openPhases <;> simp [Trace.endPhase, hopen, events, Trace.add]

theorem events_closePhases (t : Trace) :
    t.closePhases.events = t.events ++ .replicate t.openPhases.length .phaseEnd := by
  induction hopen : t.openPhases generalizing t with
  | nil => simp [closePhases_of_nil hopen]
  | cons phase outer ih =>
    rw [closePhases_of_cons hopen, ih _ (by rw [Trace.endPhase, hopen]), events_endPhase, hopen]
    simp [List.replicate_succ]

theorem events_apply (t : Trace) (call : Call) :
    (call.apply t).events = t.events ++ call.writes t.openPhases.length := by
  cases call with
  | endPhase => exact t.events_endPhase
  | closePhases => exact t.events_closePhases
  | startPhase _ _ | log _ _ => simp [Call.apply, Call.writes, events, Trace.startPhase, record, Trace.add]

/-- After any calls the open phases are those that started and did not end, outermost first if read backwards. The parent
of an entry is the innermost phase that was open before it, so a phase that started earlier, and an end has the phase as
its parent that it ends. Closing all phases balances the whole, and once is enough. -/
theorem calls_nest (calls : List Call) :
    let t := after calls
    (∀ call, (after (calls ++ [call])).events = t.events ++ call.writes t.openPhases.length) ∧
      (t.openPhases.reverse.Pairwise (· < ·) ∧ ∀ i, i ∈ t.openPhases ↔ Unended t.events i) ∧
      (∀ k e, t.entries[k]? = some e →
        Innermost (t.events.take k) e.parent ∧
          (e.event = .phaseEnd → ∃ i, e.parent = some i ∧ Ends t.events i k) ∧
          ∀ i, e.parent = some i → i < k ∧ Starts t.events i) ∧
      Balanced t.closePhases.events ∧ t.closePhases.closePhases = t.closePhases := by
  intro t
  have hkept := wellKept_after calls
  obtain ⟨hclosed, hnone⟩ := hkept.closePhases
  refine ⟨fun call => ?_, ⟨List.pairwise_reverse.mpr hkept.leaving.pairwise, hkept.leaving.mem_iff⟩,
    fun k e hk => ?_, (hnone ▸ hclosed.leaving).isBalanced, closePhases_of_nil hnone⟩
  · rw [after, List.foldl_append]
    exact events_apply t call
  · obtain ⟨hinnermost, hends⟩ := hkept.links k e hk
    refine ⟨hinnermost, hends, fun i hi => ?_⟩
    rw [hi] at hinnermost
    have hstarts : Starts (t.events.take k) i := hinnermost.1.1
    have hlt := hstarts.lt
    rw [List.length_take] at hlt
    refine ⟨by omega, ?_⟩
    rw [← List.take_append_drop k t.events]
    exact (starts_append hstarts.lt).mpr hstarts

/-- an end without a start, then two phases of which the inner one ends -/
theorem innerEnded_nests :
    let t := after [.endPhase, .startPhase "a" "", .startPhase "b" "", .endPhase]
    Unended t.events 0 ∧ Ends t.events 1 2 := by
  intro t
  obtain ⟨_, ⟨_, hopen⟩, hlinks, _⟩ := calls_nest [.endPhase, .startPhase "a" "", .startPhase "b" "", .endPhase]
  obtain ⟨i, hi, hends⟩ := (hlinks 2 ⟨.phaseEnd, some 1⟩ rfl).2.1 rfl
  cases hi
  exact ⟨(hopen 0).mp (by decide), hends⟩

end Trace

end StaticPromotion
