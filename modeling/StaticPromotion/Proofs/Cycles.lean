import StaticPromotion.Proofs.Ranks
import Mathlib.Data.Fintype.Pigeonhole
import Mathlib.Data.Set.Finite.List

/-!
# Growing against shrinking

The candidates that can become static together may also be looked for from above: start with all that do not use their
instance, and drop whoever calls a method that is neither left nor eligible before, until nobody does. That gives the
greatest set in which every member is ready, and the passes from the bottom give the least. What lies between them are the
methods from which a cycle of calls can be reached.

* `shrink prior provisional`   what is left in the end; `shrink_stable` and `shrink_greatest` say which set it is;
* `LeadsIntoCycle`             calls that come back to a method they have been at, outside of what was eligible before;
* `exists_cycle`               in a finite set whose members all call a member, every member leads into a cycle;
* `not_leadsIntoCycle`         nothing that a pass admits does, since ranks go down along calls;
* `shrinking_keeps_cycles`     both together, for the verdicts on the candidates of a class.
-/

namespace StaticPromotion.Eligibility

variable {μ : Type} {m : μ}

/-! ## calls that come back -/

/-- a row of calls from `m`, outside of `prior`, that ends where it was before -/
def LeadsIntoCycle (prior : List μ) (Calls : μ → μ → Prop) (m : μ) : Prop :=
  ∃ (x : Nat → μ) (j k : Nat), x 0 = m ∧ j < k ∧ (∀ i < k, Calls (x i) (x (i + 1))) ∧
    (∀ i < k, x (i + 1) ∉ prior) ∧ x k = x j

/-- Follow the calls within the set: they are more than it has members. -/
theorem exists_cycle {prior set : List μ} {Calls : μ → μ → Prop}
    (h : ∀ m ∈ set, ∃ e ∈ set, Calls m e ∧ e ∉ prior) (hm : m ∈ set) : LeadsIntoCycle prior Calls m := by
  classical
  have hnext : ∀ a : {a // a ∈ set}, ∃ b : {b // b ∈ set}, Calls a.1 b.1 ∧ b.1 ∉ prior := by
    intro a
    obtain ⟨e, he, hcalls, hprior⟩ := h a.1 a.2
    exact ⟨⟨e, he⟩, hcalls, hprior⟩
  choose next hcalls using hnext
  let x : Nat → {a // a ∈ set} := fun i => next^[i] ⟨m, hm⟩
  have hstep : ∀ i, x (i + 1) = next (x i) := fun i => Function.iterate_succ_apply' next i _
  have hfinite : Finite {a // a ∈ set} := (List.finite_toSet set).to_subtype
  obtain ⟨j, k, hne, hsame⟩ := Finite.exists_ne_map_eq_of_infinite x
  wlog hlt : j < k generalizing j k
  · exact this k j hne.symm hsame.symm (by omega)
  refine ⟨fun i => (x i).1, j, k, rfl, hlt, fun i _ => ?_, fun i _ => ?_, ?_⟩
  · show Calls (x i).1 (x (i + 1)).1
    rw [hstep]
    exact (hcalls (x i)).1
  · show (x (i + 1)).1 ∉ prior
    rw [hstep]
    exact (hcalls (x i)).2
  · show (x k).1 = (x j).1
    rw [hsame]

variable [DecidableEq μ]

/-! ## from above -/

/-- those that call a method neither among them nor eligible before -/
def dropped (prior : List μ) (provisional : List (μ × List μ)) : List (μ × List μ) :=
  waiting prior (provisional.map (·.1)) provisional

/-- those that do not -/
def kept (prior : List μ) (provisional : List (μ × List μ)) : List (μ × List μ) :=
  ready prior (provisional.map (·.1)) provisional

theorem length_kept_lt {prior : List μ} {provisional : List (μ × List μ)}
    (h : dropped prior provisional ≠ []) : (kept prior provisional).length < provisional.length := by
  obtain ⟨candidate, hmem⟩ := List.exists_mem_of_ne_nil _ h
  obtain ⟨hprovisional, hnot⟩ := List.mem_filter.mp hmem
  exact List.length_filter_lt_length_iff_exists.mpr ⟨candidate, hprovisional, by simpa using hnot⟩

/-- what is left once a pass drops nobody -/
def shrink (prior : List μ) (provisional : List (μ × List μ)) : List (μ × List μ) :=
  if dropped prior provisional = [] then provisional else shrink prior (kept prior provisional)
termination_by provisional.length
decreasing_by exact length_kept_lt ‹_›

section
variable {prior : List μ} {provisional : List (μ × List μ)}

theorem shrink_subset : shrink prior provisional ⊆ provisional := by
  fun_induction shrink prior provisional with
  | case1 => exact fun _ h => h
  | case2 provisional _ ih => exact fun _ h => (List.mem_filter.mp (ih h)).1

/-- whoever is left calls only methods that are left or were eligible before -/
theorem shrink_stable {candidate : μ × List μ} (h : candidate ∈ shrink prior provisional) :
    ∀ e ∈ candidate.2, e ∉ prior → e ∈ (shrink prior provisional).map (·.1) := by
  fun_induction shrink prior provisional with
  | case1 provisional hnone =>
    have hready := List.filter_eq_nil_iff.mp hnone candidate h
    rw [Bool.not_eq_true', Bool.not_eq_false] at hready
    exact isReady_iff.mp hready
  | case2 provisional _ ih => exact ih h

/-- a set whose members are all ready loses none of them -/
theorem shrink_greatest {set : List (μ × List μ)} (hset : set ⊆ provisional)
    (h : ∀ candidate ∈ set, ∀ e ∈ candidate.2, e ∉ prior → e ∈ set.map (·.1)) :
    set ⊆ shrink prior provisional := by
  fun_induction shrink prior provisional with
  | case1 => exact hset
  | case2 provisional _ ih =>
    refine ih fun candidate hmem => List.mem_filter.mpr ⟨hset hmem, isReady_iff.mpr ?_⟩
    intro e he hprior
    exact List.map_subset _ hset (h candidate hmem e he hprior)

end

/-! ## from below -/

omit [DecidableEq μ] in
theorem exists_rank {ps : List (List μ)} (h : m ∈ ps.flatten) : ∃ r, m ∈ level ps r := by
  have hbelow : m ∈ below ps ps.length := by rwa [below, List.take_length]
  obtain ⟨r, -, hr⟩ := mem_below_iff.mp hbelow
  exact ⟨r, hr⟩

section
variable {prior : List μ} {candidates : List (μ × List μ)}
  (distinct : (candidates.map (·.1)).Nodup)
include distinct

theorem rank_unique {i k : Nat} (hi : m ∈ level (passes prior [] candidates) i)
    (hk : m ∈ level (passes prior [] candidates) k) : ¬ i < k := by
  intro hlt
  have hnodup : (below (passes prior [] candidates) (k + 1)).Nodup :=
    (below_sublist _ _).nodup (nodup_passes distinct)
  rw [below_append_level] at hnodup
  exact (List.nodup_append'.mp hnodup).2.2 (mem_below_iff.mpr ⟨i, hlt, hi⟩) hk

/-- each call outside of `prior` goes down by a rank at least -/
theorem rank_along {x : Nat → μ} {k : Nat}
    (hcalls : ∀ i < k, ∀ callees, (x i, callees) ∈ candidates → x (i + 1) ∈ callees)
    (hprior : ∀ i < k, x (i + 1) ∉ prior) {r : Nat} (hstart : x 0 ∈ level (passes prior [] candidates) r) :
    ∀ i ≤ k, ∃ r', r' + i ≤ r ∧ x i ∈ level (passes prior [] candidates) r' := by
  intro i hi
  induction i with
  | zero => exact ⟨r, Nat.le_refl r, hstart⟩
  | succ i ih =>
    obtain ⟨r₁, hle, hlevel⟩ := ih (by omega)
    obtain ⟨callees, hmem⟩ := mem_passes (mem_flatten_of_mem_level hlevel)
    have hlower := ((mem_level_iff_callees distinct hmem r₁).mp hlevel).1
    obtain ⟨r₂, hlt, hlevel₂⟩ := hlower _ (hcalls i hi callees hmem) (hprior i hi)
    exact ⟨r₂, by omega, hlevel₂⟩

/-- a method with a rank leads into no cycle: it would come back with a lower one -/
theorem not_leadsIntoCycle {Calls : μ → μ → Prop}
    (hCalls : ∀ m e callees, Calls m e → (m, callees) ∈ candidates → e ∈ callees)
    (hm : m ∈ (passes prior [] candidates).flatten) : ¬ LeadsIntoCycle prior Calls m := by
  rintro ⟨x, j, k, rfl, hlt, hcalls, hprior, hback⟩
  have hstep : ∀ i < k, ∀ callees, (x i, callees) ∈ candidates → x (i + 1) ∈ callees :=
    fun i hi callees => hCalls _ _ _ (hcalls i hi)
  obtain ⟨r, hstart⟩ := exists_rank hm
  obtain ⟨rj, -, hj⟩ := rank_along distinct hstep hprior hstart j (by omega)
  -- the same row of calls, from the place that it comes back to
  obtain ⟨rk, hle, hk⟩ := rank_along distinct (x := fun i => x (j + i)) (k := k - j)
    (fun i hi => hstep (j + i) (by omega)) (fun i hi => hprior (j + i) (by omega)) hj (k - j)
    (Nat.le_refl _)
  have hend : j + (k - j) = k := by omega
  simp only [hend, hback] at hk
  exact rank_unique distinct hk hj (by omega)

/-- whatever a pass admits is left in the end -/
theorem eligible_subset_shrink (hm : m ∈ (passes prior [] candidates).flatten) :
    m ∈ (shrink prior candidates).map (·.1) := by
  let set := candidates.filter fun candidate => (passes prior [] candidates).flatten.contains candidate.1
  have hset : ∀ e, e ∈ (passes prior [] candidates).flatten → e ∈ set.map (·.1) := by
    intro e he
    obtain ⟨callees, hmem⟩ := mem_passes he
    exact List.mem_map.mpr ⟨_, List.mem_filter.mpr ⟨hmem, List.contains_iff_mem.mpr he⟩, rfl⟩
  have hready : ∀ candidate ∈ set, ∀ e ∈ candidate.2, e ∉ prior → e ∈ set.map (·.1) := by
    intro candidate hcandidate e he hprior
    obtain ⟨hmem, hadmitted⟩ := List.mem_filter.mp hcandidate
    obtain ⟨r, hlevel⟩ := exists_rank (List.contains_iff_mem.mp hadmitted)
    obtain ⟨i, -, hi⟩ := ((mem_level_iff_callees distinct hmem r).mp hlevel).1 e he hprior
    exact hset e (mem_flatten_of_mem_level hi)
  have hsub : set ⊆ candidates := List.filter_sublist.subset
  exact List.map_subset _ (shrink_greatest hsub hready) (hset m hm)

omit distinct in
/-- whoever is left without being admitted by a pass calls another such method, outside of `prior` -/
theorem exists_callee_left (hm : m ∈ (shrink prior candidates).map (·.1))
    (hnot : m ∉ (passes prior [] candidates).flatten) :
    ∃ callees, (m, callees) ∈ candidates ∧ ∃ e ∈ callees, e ∉ prior ∧
      e ∈ (shrink prior candidates).map (·.1) ∧ e ∉ (passes prior [] candidates).flatten := by
  obtain ⟨⟨_, callees⟩, hleft, rfl⟩ := List.mem_map.mp hm
  have hmem := shrink_subset hleft
  refine ⟨callees, hmem, ?_⟩
  by_contra hnone
  push Not at hnone
  refine hnot (mem_eligible_of_callees hmem fun e he => ?_)
  by_cases hprior : e ∈ prior
  · exact .inl hprior
  · exact .inr (hnone e he hprior (shrink_stable hleft e he hprior))

end

end StaticPromotion.Eligibility

namespace StaticPromotion.Analysis

open Eligibility

/-- an edge of a method that does not use its instance -/
def Calls (verdicts : List (MethodId × Verdict)) (m e : MethodId) : Prop :=
  ∃ edges, (m, .clear edges) ∈ verdicts ∧ e ∈ edges

/-- with one verdict for each method, its edges are all its calls -/
theorem Calls.mem_of_mem {verdicts : List (MethodId × Verdict)}
    (distinct : (verdicts.map (·.1)).Nodup) (m e : MethodId) (edges : List MethodId)
    (h : Calls verdicts m e) (hmem : (m, edges) ∈ callees verdicts) : e ∈ edges := by
  obtain ⟨edges', hmem', he⟩ := h
  have hsame : (m, edges') = (m, edges) :=
    List.inj_on_of_nodup_map (nodup_callees distinct) (mem_callees_iff.mpr hmem') hmem rfl
  cases hsame
  exact he

/-- The methods that the passes from below admit are left by the loop from above. Of those that it leaves, exactly the
ones that lead into a cycle of calls are not admitted, so that the two agree when there is none. The verdicts belong to
pairwise distinct methods. -/
theorem shrinking_keeps_cycles (prior : List MethodId) (verdicts : List (MethodId × Verdict))
    (distinct : (verdicts.map (·.1)).Nodup) :
    let grown := (resolve prior (callees verdicts)).eligible
    let shrunk := (shrink prior (callees verdicts)).map (·.1)
    (∀ m ∈ grown, m ∈ shrunk) ∧
      (∀ m ∈ shrunk, m ∉ grown ↔ LeadsIntoCycle prior (Calls verdicts) m) ∧
      ((∀ m, m ∈ shrunk ↔ m ∈ grown) ↔ ∀ m ∈ shrunk, ¬ LeadsIntoCycle prior (Calls verdicts) m) ∧
      ∀ m, LeadsIntoCycle prior (Calls verdicts) m → m ∉ grown := by
  intro grown shrunk
  have hkeys := nodup_callees distinct
  have hsub : ∀ m ∈ grown, m ∈ shrunk := fun m hm => eligible_subset_shrink hkeys hm
  have hnever : ∀ m, LeadsIntoCycle prior (Calls verdicts) m → m ∉ grown := by
    intro m hcycle hm
    exact not_leadsIntoCycle hkeys (Calls.mem_of_mem distinct) hm hcycle
  have hleft : ∀ m ∈ shrunk, m ∉ grown → LeadsIntoCycle prior (Calls verdicts) m := by
    intro m hm hnot
    -- the methods in question each call another of them
    let set := shrunk.filter fun m => !grown.contains m
    have hset : ∀ e, e ∈ set ↔ e ∈ shrunk ∧ e ∉ grown := by simp [set]
    refine exists_cycle (fun a ha => ?_) ((hset m).mpr ⟨hm, hnot⟩)
    obtain ⟨ha, hanot⟩ := (hset a).mp ha
    obtain ⟨edges, hmem, e, he, hprior, hin, hout⟩ := exists_callee_left ha hanot
    exact ⟨e, (hset e).mpr ⟨hin, hout⟩, ⟨edges, mem_callees_iff.mp hmem, he⟩, hprior⟩
  refine ⟨hsub, fun m hm => ⟨hleft m hm, hnever m⟩, ⟨?_, ?_⟩, hnever⟩
  · intro hsame m hm hcycle
    exact hnever m hcycle ((hsame m).mp hm)
  · intro hnone m
    refine ⟨fun hm => ?_, hsub m⟩
    by_contra hnot
    exact hnone m hm (hleft m hm hnot)

/-- The first method calls the second, and the second calls itself, the third and an eligible method of another class.
The third calls none, and the fourth one that is no candidate. -/
def loopVerdicts : List (MethodId × Verdict) :=
  [(⟨0, 0⟩, .clear [⟨0, 1⟩]), (⟨0, 1⟩, .clear [⟨1, 0⟩, ⟨0, 1⟩, ⟨0, 2⟩]), (⟨0, 2⟩, .clear []),
    (⟨0, 3⟩, .clear [⟨0, 4⟩]), (⟨0, 4⟩, .access ⟨.unindexedLocalClass, 1⟩)]

theorem loop_shrinking_keeps_cycles :
    (loopVerdicts.map (·.1)).Nodup ∧
      (shrink [⟨1, 0⟩] (callees loopVerdicts)).map (·.1) = [⟨0, 0⟩, ⟨0, 1⟩, ⟨0, 2⟩] ∧
      (⟨0, 0⟩ : MethodId) ∉ (resolve [⟨1, 0⟩] (callees loopVerdicts)).eligible ∧
      (⟨0, 1⟩ : MethodId) ∉ (resolve [⟨1, 0⟩] (callees loopVerdicts)).eligible := by
  have distinct : (loopVerdicts.map (·.1)).Nodup := by decide
  obtain ⟨-, -, -, hnever⟩ := shrinking_keeps_cycles [⟨1, 0⟩] loopVerdicts distinct
  have hfirst : Calls loopVerdicts ⟨0, 0⟩ ⟨0, 1⟩ := ⟨[⟨0, 1⟩], by decide, by decide⟩
  have hsecond : Calls loopVerdicts ⟨0, 1⟩ ⟨0, 1⟩ := ⟨[⟨1, 0⟩, ⟨0, 1⟩, ⟨0, 2⟩], by decide, by decide⟩
  refine ⟨distinct, ?_, hnever _ ⟨fun i => if i = 0 then ⟨0, 0⟩ else ⟨0, 1⟩, 1, 2, rfl, by decide, ?_, ?_, rfl⟩,
    hnever _ ⟨fun _ => ⟨0, 1⟩, 0, 1, rfl, by decide, fun _ _ => hsecond, by decide, rfl⟩⟩
  · rw [shrink, if_neg (by decide), shrink, if_pos (by decide)]
    decide
  · intro i hi
    obtain rfl | rfl : i = 0 ∨ i = 1 := by omega
    · exact hfirst
    · exact hsecond
  · decide

end StaticPromotion.Analysis
