import StaticPromotion.Analysis
import StaticPromotion.Proofs.Grounding
import Mathlib.Data.List.Forall2
import Mathlib.Data.List.Nodup
import Mathlib.Data.List.Perm.Basic

/-!
# The passes as ranks

The rank of a candidate is the number of the pass that admits it: one more than the highest rank among the callees that
were not eligible before, and the lowest for a candidate without such a callee. So the passes do not depend on the order
in which the candidates stand.

* `level ps k`         what the pass number `k` admits, counted from zero; nothing behind the last pass;
* `mem_level_iff`      a candidate is admitted by the first pass that finds it ready;
* `mem_level_iff_callees`   the same read off its callees;
* `passes_perm`        the passes of a permuted list, from sets with the same members;
* `passes_are_ranks`   all of it for the verdicts on the candidates of a class.
-/

namespace StaticPromotion.Eligibility

variable {μ : Type}

def level (ps : List (List μ)) (k : Nat) : List μ :=
  ps.getD k []

/-- what the passes before the pass `k` admit -/
def below (ps : List (List μ)) (k : Nat) : List μ :=
  (ps.take k).flatten

@[simp] theorem level_zero (pass : List μ) (ps : List (List μ)) : level (pass :: ps) 0 = pass := rfl

@[simp] theorem level_succ (pass : List μ) (ps : List (List μ)) (k : Nat) :
    level (pass :: ps) (k + 1) = level ps k := rfl

@[simp] theorem level_nil (k : Nat) : level ([] : List (List μ)) k = [] := rfl

@[simp] theorem below_zero (ps : List (List μ)) : below ps 0 = [] := rfl

@[simp] theorem below_nil (k : Nat) : below ([] : List (List μ)) k = [] := by
  simp [below]

@[simp] theorem below_succ (pass : List μ) (ps : List (List μ)) (k : Nat) :
    below (pass :: ps) (k + 1) = pass ++ below ps k := rfl

theorem mem_below_iff {ps : List (List μ)} {k : Nat} {m : μ} :
    m ∈ below ps k ↔ ∃ i < k, m ∈ level ps i := by
  induction ps generalizing k with
  | nil => simp
  | cons pass ps ih =>
    cases k with
    | zero => simp
    | succ k =>
      rw [below_succ, List.mem_append, ih]
      constructor
      · rintro (hpass | ⟨i, hi, hm⟩)
        · exact ⟨0, Nat.succ_pos k, hpass⟩
        · exact ⟨i + 1, Nat.succ_lt_succ hi, hm⟩
      · rintro ⟨i, hi, hm⟩
        cases i with
        | zero => exact .inl hm
        | succ i => exact .inr ⟨i, Nat.lt_of_succ_lt_succ hi, hm⟩

theorem below_append_level (ps : List (List μ)) (k : Nat) :
    below ps (k + 1) = below ps k ++ level ps k := by
  induction ps generalizing k with
  | nil => simp
  | cons pass ps ih =>
    cases k with
    | zero => simp
    | succ k => rw [below_succ, ih, below_succ, level_succ, List.append_assoc]

theorem below_sublist (ps : List (List μ)) (k : Nat) : (below ps k).Sublist ps.flatten := by
  have hsplit : ps.flatten = below ps k ++ (ps.drop k).flatten := by
    rw [below, ← List.flatten_append, List.take_append_drop]
  rw [hsplit]
  exact List.sublist_append_left _ _

theorem mem_flatten_of_mem_level {ps : List (List μ)} {k : Nat} {m : μ} (h : m ∈ level ps k) :
    m ∈ ps.flatten :=
  (below_sublist ps (k + 1)).subset (mem_below_iff.mpr ⟨k, Nat.lt_succ_self k, h⟩)

variable [DecidableEq μ]

theorem isReady_iff {prior proven : List μ} {candidate : μ × List μ} :
    isReady prior proven candidate = true ↔ ∀ e ∈ candidate.2, e ∉ prior → e ∈ proven := by
  constructor
  · intro h e he hprior
    exact (List.mem_append.mp (mem_of_isReady h he)).resolve_left hprior
  · intro h
    refine isReady_of_mem fun e he => ?_
    by_cases hprior : e ∈ prior
    · exact .inl hprior
    · exact .inr (h e he hprior)

/-! ## the shape of the passes -/

section
variable {prior proven : List μ} {pending : List (μ × List μ)}

theorem pass_ne_nil {pass : List μ} (h : pass ∈ passes prior proven pending) : pass ≠ [] := by
  fun_induction Eligibility.passes prior proven pending with
  | case1 => cases h
  | case2 proven pending hsome admitted ih =>
    rcases List.mem_cons.mp h with rfl | hlater
    · exact fun hnil => hsome (List.map_eq_nil_iff.mp hnil)
    · exact ih hlater

theorem length_passes_le : (passes prior proven pending).length ≤ pending.length := by
  fun_induction Eligibility.passes prior proven pending with
  | case1 => exact Nat.zero_le _
  | case2 proven pending hsome admitted ih =>
    exact Nat.succ_le_of_lt (Nat.lt_of_le_of_lt ih (length_waiting_lt _ _ _ hsome))

/-- the candidates of a pass and those left waiting are the pending ones, sorted apart -/
theorem ready_append_waiting_perm :
    (ready prior proven pending ++ waiting prior proven pending).Perm pending :=
  List.filter_append_perm (isReady prior proven) pending

theorem nodup_waiting (h : (pending.map (·.1)).Nodup) : ((waiting prior proven pending).map (·.1)).Nodup :=
  (List.filter_sublist.map _).nodup h

theorem disjoint_ready_waiting (h : (pending.map (·.1)).Nodup) :
    ((ready prior proven pending).map (·.1)).Disjoint ((waiting prior proven pending).map (·.1)) := by
  have hperm : ((ready prior proven pending ++ waiting prior proven pending).map (·.1)).Perm
      (pending.map (·.1)) := ready_append_waiting_perm.map _
  rw [List.map_append] at hperm
  exact (List.nodup_append'.mp (hperm.nodup_iff.mpr h)).2.2

/-- what is admitted was pending, each candidate at most once -/
theorem nodup_passes (h : (pending.map (·.1)).Nodup) : (passes prior proven pending).flatten.Nodup := by
  fun_induction Eligibility.passes prior proven pending with
  | case1 => exact List.nodup_nil
  | case2 proven pending hsome admitted ih =>
    rw [List.flatten_cons]
    refine List.Nodup.append ((List.filter_sublist.map _).nodup h) (ih (nodup_waiting h)) ?_
    intro m hm hlater
    obtain ⟨callees, hwaiting⟩ := mem_passes hlater
    exact disjoint_ready_waiting h hm (List.mem_map_of_mem hwaiting)

/-! ## when a candidate is admitted -/

/-- by induction over the passes: a candidate that is not ready waits, and one that is ready does not wait any more -/
theorem mem_level_iff {candidate : μ × List μ} (distinct : (pending.map (·.1)).Nodup)
    (hmem : candidate ∈ pending) (k : Nat) :
    candidate.1 ∈ level (passes prior proven pending) k ↔
      isReady prior (proven ++ below (passes prior proven pending) k) candidate = true ∧
        ∀ j < k, isReady prior (proven ++ below (passes prior proven pending) j) candidate = false := by
  fun_induction Eligibility.passes prior proven pending generalizing k with
  | case1 proven pending hnone =>
    have hnot : isReady prior proven candidate = false :=
      Bool.eq_false_iff.mpr (List.filter_eq_nil_iff.mp hnone candidate hmem)
    simp [hnot]
  | case2 proven pending hsome admitted ih =>
    by_cases hready : isReady prior proven candidate = true
    · have hadmitted : candidate.1 ∈ admitted :=
        List.mem_map_of_mem (List.mem_filter.mpr ⟨hmem, hready⟩)
      cases k with
      | zero => simp [hready, hadmitted]
      | succ k =>
        refine iff_of_false (fun hlater => ?_) fun h => ?_
        · obtain ⟨callees, hwaiting⟩ := mem_passes (mem_flatten_of_mem_level hlater)
          exact disjoint_ready_waiting distinct hadmitted (List.mem_map.mpr ⟨_, hwaiting, rfl⟩)
        · have hfirst := h.2 0 (Nat.succ_pos k)
          rw [below_zero, List.append_nil, hready] at hfirst
          cases hfirst
    · have hwaiting : candidate ∈ waiting prior proven pending :=
        List.mem_filter.mpr ⟨hmem, by simp [hready]⟩
      cases k with
      | zero =>
        refine iff_of_false (fun hadmitted => ?_) fun h => ?_
        · exact disjoint_ready_waiting distinct hadmitted (List.mem_map_of_mem hwaiting)
        · rw [below_zero, List.append_nil] at h
          exact hready h.1
      | succ k =>
        have hnot : isReady prior proven candidate = false := Bool.eq_false_iff.mpr hready
        rw [level_succ, ih (nodup_waiting distinct) hwaiting k, Nat.forall_lt_succ_left]
        simp only [below_zero, below_succ, List.append_nil, List.append_assoc, hnot, true_and]

/-- A candidate is admitted right after the last of the callees that were not eligible before. That the pass before admits
one of them says that it was not ready earlier, since no other pass admits that callee. -/
theorem mem_level_iff_callees {candidates : List (μ × List μ)} {m : μ} {callees : List μ}
    (distinct : (candidates.map (·.1)).Nodup) (hmem : (m, callees) ∈ candidates) (k : Nat) :
    m ∈ level (passes prior [] candidates) k ↔
      (∀ e ∈ callees, e ∉ prior → ∃ i < k, e ∈ level (passes prior [] candidates) i) ∧
        (0 < k → ∃ e ∈ callees, e ∉ prior ∧ e ∈ level (passes prior [] candidates) (k - 1)) := by
  have hready (j : Nat) : isReady prior ([] ++ below (passes prior [] candidates) j) (m, callees) = true ↔
      ∀ e ∈ callees, e ∉ prior → e ∈ below (passes prior [] candidates) j := isReady_iff
  rw [mem_level_iff distinct hmem k, hready]
  simp only [← mem_below_iff]
  refine and_congr_right fun hbelow => ?_
  cases k with
  | zero => simp
  | succ k =>
    have hnodup : (below (passes prior [] candidates) (k + 1)).Nodup :=
      (below_sublist _ _).nodup (nodup_passes distinct)
    rw [below_append_level] at hnodup
    have hsplit : ∀ e ∈ callees, e ∉ prior →
        (e ∉ below (passes prior [] candidates) k ↔ e ∈ level (passes prior [] candidates) k) := by
      intro e he hprior
      have hmem := hbelow e he hprior
      rw [below_append_level, List.mem_append] at hmem
      exact ⟨hmem.resolve_left, fun hlevel hlower => (List.nodup_append'.mp hnodup).2.2 hlower hlevel⟩
    constructor
    · intro h _
      have hnot := h k (Nat.lt_succ_self k)
      rw [← Bool.not_eq_true, hready] at hnot
      simp only [not_forall] at hnot
      obtain ⟨e, he, hprior, hlower⟩ := hnot
      exact ⟨e, he, hprior, (hsplit e he hprior).mp hlower⟩
    · intro h j hj
      obtain ⟨e, he, hprior, hlevel⟩ := h (Nat.succ_pos k)
      rw [← Bool.not_eq_true, hready]
      intro hlower
      obtain ⟨i, hi, hmem⟩ := mem_below_iff.mp (hlower e he hprior)
      exact (hsplit e he hprior).mpr hlevel (mem_below_iff.mpr ⟨i, by omega, hmem⟩)

end

/-! ## the order of the candidates -/

section
variable {prior prior' proven proven' : List μ} {pending pending' : List (μ × List μ)}
  (hprior : ∀ m, m ∈ prior' ↔ m ∈ prior) (hproven : ∀ m, m ∈ proven' ↔ m ∈ proven)
  (hpending : pending'.Perm pending)
include hprior hproven

theorem isReady_congr : isReady prior' proven' = isReady prior proven := by
  funext candidate
  rw [Bool.eq_iff_iff, isReady_iff, isReady_iff]
  simp only [hprior, hproven]

include hpending

theorem ready_perm : (ready prior' proven' pending').Perm (ready prior proven pending) := by
  rw [ready, isReady_congr hprior hproven]
  exact hpending.filter _

theorem waiting_perm : (waiting prior' proven' pending').Perm (waiting prior proven pending) := by
  rw [waiting, isReady_congr hprior hproven]
  exact hpending.filter _

end

theorem passes_perm {prior prior' proven : List μ} {pending : List (μ × List μ)}
    (proven' : List μ) (pending' : List (μ × List μ)) (hprior : ∀ m, m ∈ prior' ↔ m ∈ prior)
    (hproven : ∀ m, m ∈ proven' ↔ m ∈ proven) (hpending : pending'.Perm pending) :
    List.Forall₂ List.Perm (passes prior' proven' pending') (passes prior proven pending) := by
  fun_induction Eligibility.passes prior proven pending generalizing proven' pending' with
  | case1 proven pending hnone =>
    have hready := ready_perm hprior hproven hpending
    rw [hnone] at hready
    rw [passes, if_pos hready.eq_nil]
    exact .nil
  | case2 proven pending hsome admitted ih =>
    have hready := ready_perm hprior hproven hpending
    have hadmitted := hready.map (·.1)
    have hmore : ∀ m, m ∈ proven' ++ (ready prior' proven' pending').map (·.1) ↔
        m ∈ proven ++ admitted := by
      intro m
      rw [List.mem_append, List.mem_append, hproven, hadmitted.mem_iff]
    rw [passes, if_neg fun hnil => hsome (hnil ▸ hready).symm.eq_nil]
    exact .cons hadmitted (ih _ _ hmore (waiting_perm hprior hproven hpending))

end StaticPromotion.Eligibility

namespace StaticPromotion.Analysis

open Eligibility

theorem mem_callees_iff {verdicts : List (MethodId × Verdict)} {m : MethodId} {edges : List MethodId} :
    (m, edges) ∈ callees verdicts ↔ (m, .clear edges) ∈ verdicts := by
  rw [callees, List.mem_filterMap]
  constructor
  · rintro ⟨⟨m', verdict⟩, hmem, heq⟩
    cases verdict with
    | access finding => cases heq
    | clear edges' =>
      cases heq
      exact hmem
  · exact fun hmem => ⟨_, hmem, rfl⟩

theorem nodup_callees {verdicts : List (MethodId × Verdict)} (h : (verdicts.map (·.1)).Nodup) :
    ((callees verdicts).map (·.1)).Nodup := by
  have hsub : ((callees verdicts).map (·.1)).Sublist (verdicts.map (·.1)) := by
    induction verdicts with
    | nil => exact .slnil
    | cons v verdicts ih =>
      have hrest := ih (List.nodup_cons.mp h).2
      rcases v with ⟨m, finding | edges⟩
      · exact hrest.cons _
      · exact hrest.cons_cons _
  exact hsub.nodup h

/-- The passes of a resolution are the ranks of the candidates, the pass number `k + 1` being `level _ k`. The verdicts
belong to pairwise distinct methods. -/
theorem passes_are_ranks (prior : List MethodId) (verdicts : List (MethodId × Verdict))
    (distinct : (verdicts.map (·.1)).Nodup) :
    let r := resolve prior (callees verdicts)
    (∀ pass ∈ r.passes, pass ≠ [] ∧ pass.Nodup) ∧
      r.passes.Pairwise List.Disjoint ∧
      r.passes.length ≤ (callees verdicts).length ∧
      (∀ m, m ∈ r.eligible ↔ ∃ pass ∈ r.passes, m ∈ pass) ∧
      (∀ m edges, (m, .clear edges) ∈ verdicts → ∀ k,
        m ∈ level r.passes k ↔
          (∀ e ∈ edges, e ∉ prior → ∃ i < k, e ∈ level r.passes i) ∧
            (0 < k → ∃ e ∈ edges, e ∉ prior ∧ e ∈ level r.passes (k - 1))) ∧
      (∀ m ∈ r.eligible, ∃ edges, (m, .clear edges) ∈ verdicts) ∧
      ∀ prior' verdicts', (∀ m, m ∈ prior' ↔ m ∈ prior) → verdicts'.Perm verdicts →
        List.Forall₂ List.Perm (resolve prior' (callees verdicts')).passes r.passes ∧
          (resolve prior' (callees verdicts')).eligible.Perm r.eligible := by
  intro r
  have hkeys := nodup_callees distinct
  have hnodup : r.passes.flatten.Nodup := nodup_passes hkeys
  obtain ⟨heach, hapart⟩ := List.nodup_flatten.mp hnodup
  refine ⟨fun pass hpass => ⟨pass_ne_nil hpass, heach pass hpass⟩, hapart,
    length_passes_le, fun m => List.mem_flatten, ?_, ?_, ?_⟩
  · intro m edges hmem k
    exact mem_level_iff_callees hkeys (mem_callees_iff.mpr hmem) k
  · intro m hm
    obtain ⟨edges, hmem⟩ := mem_passes hm
    exact ⟨edges, mem_callees_iff.mp hmem⟩
  · intro prior' verdicts' hprior hperm
    have hcallees : (callees verdicts').Perm (callees verdicts) := hperm.filterMap _
    have hpasses : List.Forall₂ List.Perm (passes prior' [] (callees verdicts'))
        (passes prior [] (callees verdicts)) := passes_perm [] _ hprior (fun _ => Iff.rfl) hcallees
    exact ⟨hpasses, List.Perm.flatten_congr hpasses⟩

/-- the first method calls the second, the second an eligible method of another class, and the third itself -/
def chainVerdicts : List (MethodId × Verdict) :=
  [(⟨0, 0⟩, .clear [⟨0, 1⟩]), (⟨0, 1⟩, .clear [⟨1, 0⟩]), (⟨0, 2⟩, .clear [⟨0, 2⟩]),
    (⟨0, 3⟩, .access ⟨.unindexedLocalClass, 1⟩)]

theorem chain_passes_are_ranks :
    (chainVerdicts.map (·.1)).Nodup ∧
      (⟨0, 1⟩ : MethodId) ∈ level (resolve [⟨1, 0⟩] (callees chainVerdicts)).passes 0 ∧
      (⟨0, 0⟩ : MethodId) ∈ level (resolve [⟨1, 0⟩] (callees chainVerdicts)).passes 1 ∧
      (⟨0, 2⟩ : MethodId) ∉ level (resolve [⟨1, 0⟩] (callees chainVerdicts)).passes 0 := by
  have distinct : (chainVerdicts.map (·.1)).Nodup := by decide
  obtain ⟨-, -, -, -, hrank, -⟩ := passes_are_ranks [⟨1, 0⟩] chainVerdicts distinct
  have hsecond := (hrank ⟨0, 1⟩ [⟨1, 0⟩] (by decide) 0).mpr ⟨by decide, by decide⟩
  refine ⟨distinct, hsecond, (hrank ⟨0, 0⟩ [⟨0, 1⟩] (by decide) 1).mpr ⟨?_, ?_⟩, ?_⟩
  · intro e he _
    rw [List.mem_singleton.mp he]
    exact ⟨0, by decide, hsecond⟩
  · exact fun _ => ⟨⟨0, 1⟩, by decide, by decide, hsecond⟩
  · intro hthird
    obtain ⟨i, hi, -⟩ := ((hrank ⟨0, 2⟩ [⟨0, 2⟩] (by decide) 0).mp hthird).1 ⟨0, 2⟩ (by decide)
      (by decide)
    exact absurd hi (Nat.not_lt_zero i)

end StaticPromotion.Analysis
