import StaticPromotion.Eligibility
import Mathlib.Logic.Relation

/-!
# Sets of methods that rest on firm ground

A set of methods is grounded if every member has a verdict that allows it and calls only members of lower rank. Such a set
cannot hold a cycle of calls, and no chain of calls leads out of it.

* `Grounded Clear set`   `Clear m callees` says that `m` is allowed, given these callees;
* `Grounded.extend`      methods that call only members may be added, above all that are there;
* `Grounded.resolve`     so every resolution keeps the set grounded, by induction over its passes;
* `mem_of_chain`, `rank_lt_of_chain`   no chain of calls leads out of a grounded set, or back to where it began;
* `Least Clear`          the least set that holds every method whose callees it holds. A grounded set lies within it, and
                         `mem_eligible_of_callees` tells that no resolution leaves out a method that could be added.
-/

namespace StaticPromotion.Eligibility

variable {μ : Type} {Clear : μ → List μ → Prop}

def Grounded (Clear : μ → List μ → Prop) (set : List μ) : Prop :=
  ∃ (rank : μ → Nat) (calls : μ → List μ),
    ∀ m ∈ set, Clear m (calls m) ∧ ∀ e ∈ calls m, e ∈ set ∧ rank e < rank m

theorem grounded_nil : Grounded Clear [] :=
  ⟨fun _ => 0, fun _ => [], fun _ hm => by cases hm⟩

theorem Grounded.congr {a b : List μ} (h : Grounded Clear a) (hab : ∀ m, m ∈ a ↔ m ∈ b) :
    Grounded Clear b := by
  obtain ⟨rank, calls, h⟩ := h
  refine ⟨rank, calls, fun m hm => ?_⟩
  obtain ⟨hclear, hcalls⟩ := h m ((hab m).mpr hm)
  exact ⟨hclear, fun e he => ⟨(hab e).mp (hcalls e he).1, (hcalls e he).2⟩⟩

theorem exists_rank_bound (rank : μ → Nat) (set : List μ) : ∃ b, ∀ m ∈ set, rank m < b := by
  induction set with
  | nil => exact ⟨0, fun _ hm => by cases hm⟩
  | cons x set ih =>
    obtain ⟨b, hb⟩ := ih
    refine ⟨max b (rank x + 1), fun m hm => ?_⟩
    rcases List.mem_cons.mp hm with rfl | hm
    · omega
    · have := hb m hm
      omega

/-! ## growing a grounded set -/

variable [DecidableEq μ] {candidate : μ × List μ} {prior : List μ} {pending : List (μ × List μ)} {m : μ}

/-- a member keeps its verdict and its rank; what is new comes above all members -/
theorem Grounded.extend {set new : List μ} (h : Grounded Clear set)
    (hnew : ∀ m ∈ new, ∃ callees, Clear m callees ∧ ∀ e ∈ callees, e ∈ set) :
    Grounded Clear (set ++ new) := by
  classical
  obtain ⟨rank, calls, h⟩ := h
  obtain ⟨b, hb⟩ := exists_rank_bound rank set
  refine ⟨fun m => if m ∈ set then rank m else b,
    fun m => if m ∈ set then calls m else if hm : m ∈ new then (hnew m hm).choose else [], ?_⟩
  intro m hm
  by_cases hset : m ∈ set
  · obtain ⟨hclear, hcalls⟩ := h m hset
    simp only [if_pos hset]
    refine ⟨hclear, fun e he => ?_⟩
    obtain ⟨hmem, hlt⟩ := hcalls e he
    exact ⟨List.mem_append_left _ hmem, by rw [if_pos hmem]; exact hlt⟩
  · have hm' : m ∈ new := (List.mem_append.mp hm).resolve_left hset
    obtain ⟨hclear, hcalls⟩ := (hnew m hm').choose_spec
    simp only [if_neg hset, dif_pos hm']
    refine ⟨hclear, fun e he => ?_⟩
    have hmem := hcalls e he
    exact ⟨List.mem_append_left _ hmem, by rw [if_pos hmem]; exact hb e hmem⟩

theorem mem_of_isReady {proven : List μ} (h : isReady prior proven candidate = true) {e : μ}
    (he : e ∈ candidate.2) : e ∈ prior ++ proven := by
  have hcallee := List.all_eq_true.mp h e he
  rw [Bool.or_eq_true, List.contains_iff_mem, List.contains_iff_mem] at hcallee
  exact List.mem_append.mpr hcallee.symm

/-- each pass adds methods whose callees are all there -/
theorem Grounded.passes {proven : List μ} (h : Grounded Clear (prior ++ proven))
    (hclear : ∀ p ∈ pending, Clear p.1 p.2) :
    Grounded Clear (prior ++ (proven ++ (passes prior proven pending).flatten)) := by
  fun_induction Eligibility.passes prior proven pending with
  | case1 proven pending hnone =>
    rw [List.flatten_nil, List.append_nil]
    exact h
  | case2 proven pending hsome admitted ih =>
    have hready : Grounded Clear (prior ++ (proven ++ admitted)) := by
      rw [← List.append_assoc]
      refine h.extend fun m hm => ?_
      obtain ⟨candidate, hmem, rfl⟩ := List.mem_map.mp hm
      obtain ⟨hpending, hisReady⟩ := List.mem_filter.mp hmem
      exact ⟨candidate.2, hclear candidate hpending, fun e he => mem_of_isReady hisReady he⟩
    rw [List.flatten_cons, ← List.append_assoc proven]
    exact ih hready fun p hp => hclear p (List.mem_filter.mp hp).1

theorem Grounded.resolve {candidates : List (μ × List μ)} (h : Grounded Clear prior)
    (hclear : ∀ p ∈ candidates, Clear p.1 p.2) :
    Grounded Clear (prior ++ (resolve prior candidates).eligible) := by
  have h' : Grounded Clear (prior ++ []) := by rwa [List.append_nil]
  exact h'.passes hclear

/-! ## what being grounded excludes -/

section
variable {set : List μ} {rank : μ → Nat} {Calls : μ → μ → Prop}
  (h : ∀ m ∈ set, ∀ e, Calls m e → e ∈ set ∧ rank e < rank m)
include h

omit [DecidableEq μ] in
theorem mem_of_chain {e : μ} (hm : m ∈ set) (hchain : Relation.ReflTransGen Calls m e) : e ∈ set := by
  induction hchain with
  | refl => exact hm
  | tail _ hstep ih => exact (h _ ih _ hstep).1

omit [DecidableEq μ] in
theorem rank_lt_of_chain {e : μ} (hm : m ∈ set) (hchain : Relation.TransGen Calls m e) :
    rank e < rank m := by
  induction hchain with
  | single hstep => exact (h m hm _ hstep).2
  | tail hfirst hstep ih =>
    have hmem := mem_of_chain h hm hfirst.to_reflTransGen
    exact Nat.lt_trans (h _ hmem _ hstep).2 ih

end

/-! ## the least set -/

inductive Least (Clear : μ → List μ → Prop) : μ → Prop
  | intro {m : μ} {callees : List μ} (clear : Clear m callees)
      (calls : ∀ e ∈ callees, Least Clear e) : Least Clear m

omit [DecidableEq μ] in
theorem Least.mono {Clear' : μ → List μ → Prop} (hle : ∀ m callees, Clear m callees → Clear' m callees)
    (h : Least Clear m) : Least Clear' m := by
  induction h with
  | intro clear _ ih => exact .intro (hle _ _ clear) ih

omit [DecidableEq μ] in
/-- by induction on the rank -/
theorem Grounded.least {set : List μ} (h : Grounded Clear set) (hm : m ∈ set) : Least Clear m := by
  obtain ⟨rank, calls, h⟩ := h
  have hrank : ∀ (n : Nat) (m : μ), m ∈ set → rank m < n → Least Clear m := by
    intro n
    induction n with
    | zero => exact fun _ _ hlt => absurd hlt (Nat.not_lt_zero _)
    | succ n ih =>
      intro m hm hlt
      obtain ⟨hclear, hcalls⟩ := h m hm
      refine .intro hclear fun e he => ?_
      obtain ⟨hmem, hlower⟩ := hcalls e he
      exact ih e hmem (Nat.lt_of_lt_of_le hlower (Nat.le_of_lt_succ hlt))
  exact hrank (rank m + 1) m hm (Nat.lt_succ_self _)

theorem isReady_of_mem {proven : List μ} (h : ∀ e ∈ candidate.2, e ∈ prior ∨ e ∈ proven) :
    isReady prior proven candidate = true := by
  refine List.all_eq_true.mpr fun e he => ?_
  rw [Bool.or_eq_true, List.contains_iff_mem, List.contains_iff_mem]
  exact (h e he).symm

/-- the passes end only when no candidate is ready -/
theorem mem_passes_of_callees {proven : List μ} (hpending : candidate ∈ pending)
    (h : ∀ e ∈ candidate.2, e ∈ prior ∨ e ∈ proven ++ (passes prior proven pending).flatten) :
    candidate.1 ∈ (passes prior proven pending).flatten := by
  fun_induction Eligibility.passes prior proven pending with
  | case1 proven pending hnone =>
    rw [List.flatten_nil, List.append_nil] at h
    have hready : candidate ∈ ready prior proven pending :=
      List.mem_filter.mpr ⟨hpending, isReady_of_mem h⟩
    rw [hnone] at hready
    cases hready
  | case2 proven pending hsome admitted ih =>
    rw [List.flatten_cons] at h ⊢
    by_cases hready : isReady prior proven candidate = true
    · exact List.mem_append_left _ (List.mem_map_of_mem (List.mem_filter.mpr ⟨hpending, hready⟩))
    · refine List.mem_append_right _ (ih (List.mem_filter.mpr ⟨hpending, by simp [hready]⟩) ?_)
      rw [List.append_assoc]
      exact h

theorem mem_eligible_of_callees {candidates : List (μ × List μ)} (hmem : candidate ∈ candidates)
    (h : ∀ e ∈ candidate.2, e ∈ prior ∨ e ∈ (resolve prior candidates).eligible) :
    candidate.1 ∈ (resolve prior candidates).eligible :=
  mem_passes_of_callees hmem h

theorem mem_passes {proven : List μ} (h : m ∈ (passes prior proven pending).flatten) :
    ∃ callees, (m, callees) ∈ pending := by
  fun_induction Eligibility.passes prior proven pending with
  | case1 => cases h
  | case2 proven pending hsome admitted ih =>
    rw [List.flatten_cons] at h
    rcases List.mem_append.mp h with hadmitted | hlater
    · obtain ⟨candidate, hready, rfl⟩ := List.mem_map.mp hadmitted
      exact ⟨candidate.2, (List.mem_filter.mp hready).1⟩
    · obtain ⟨callees, hwaiting⟩ := ih hlater
      exact ⟨callees, (List.mem_filter.mp hwaiting).1⟩

end StaticPromotion.Eligibility
