import StaticPromotion.Proofs.Rewriting

/-!
# Runs that fail closed

Whatever goes wrong in a stage after parsing ends in a result with the text as it was. So does a defective tree, if the text
of its first broken part can be decoded, for the message quotes that text; if it cannot, the run has no result.

* `Run.Blind`            a step that succeeds in every state or in none, with the same value;
* `ClosedWith`           a result that leaves the text unchanged and says why;
* `Failure`              a fault of indexing, of the analysis or of the rewriting;
* `check_of_defective`   what the check makes of a defective tree;
* `run_fails_closed`     how every run ends;
* `torn_has_no_result`   a broken part that ends within a character.
-/

namespace StaticPromotion

/-! ## steps that do not read their state -/

namespace Run

variable {ε σ α β : Type}

def Blind (x : EStateM ε σ α) : Prop :=
  ∀ ⦃s a s₁⦄, x s = .ok a s₁ → ∀ s', ∃ s₁', x s' = .ok a s₁'

theorem blind_pure (a : α) : Blind (pure a : EStateM ε σ α) := by
  intro s _ _ h s'
  cases h
  exact ⟨s', rfl⟩

theorem blind_throw (e : ε) : Blind (throw e : EStateM ε σ α) := by
  intro s _ _ h
  cases h

theorem blind_modify (change : σ → σ) : Blind (modify change : EStateM ε σ PUnit) :=
  fun _ _ _ _ s' => ⟨change s', rfl⟩

theorem Blind.bind {x : EStateM ε σ α} {f : α → EStateM ε σ β} (hx : Blind x)
    (hf : ∀ a, Blind (f a)) : Blind (x >>= f) := by
  intro s b s₂ h s'
  obtain ⟨a, s₁, hfirst, hsecond⟩ := of_bind_ok h
  obtain ⟨s₁', hfirst'⟩ := hx hfirst s'
  rw [bind_of_ok hfirst']
  exact hf a hsecond s₁'

theorem blind_foldlM {f : β → α → EStateM ε σ β} (hf : ∀ b a, Blind (f b a)) (list : List α) :
    ∀ b, Blind (list.foldlM f b) := by
  induction list with
  | nil => exact blind_pure
  | cons a list ih =>
    intro b
    rw [List.foldlM_cons]
    exact (hf b a).bind ih

end Run

namespace Table

open Run

theorem blind_decodeOrThrow (bytes : List UInt8) : Blind (decodeOrThrow bytes) := by
  unfold decodeOrThrow
  split
  · exact blind_pure _
  · exact blind_throw _

theorem blind_describe (t : Table) (m : MethodId) (s : Splice) : Blind (t.describe m s) := by
  unfold describe
  split
  · exact blind_pure _
  · exact (blind_decodeOrThrow _).bind fun _ => (blind_decodeOrThrow _).bind fun _ => blind_pure _

theorem blind_promote (t : Table) (methods : List MethodId) : Blind (t.promote methods) := by
  refine Blind.bind (blind_foldlM (fun bytes s => ?_) _ _) blind_decodeOrThrow
  exact (blind_describe t s.2 s.1).bind fun _ => (blind_modify _).bind fun _ =>
    (blind_modify _).bind fun _ => blind_pure _

end Table

namespace Refactoring

variable {u : SourceUnit} {j j' : Journal} {fault : Fault}

/-! ## failures -/

structure ClosedWith (strict : Bool) (code message : String) (r : RunResult) : Prop where
  code : r.code = code
  errors : r.errors = [if strict then message else message ++ "; file left unchanged"]
  success : r.success = !strict
  promoted : r.promoted = []
  retained : r.retained = []

theorem closedWith_failure (strict : Bool) (code message : String) (j : Journal) :
    ClosedWith strict code message (failure strict code message j).1 := by
  cases strict with
  | false => exact ⟨rfl, rfl, rfl, rfl, rfl⟩
  | true => exact ⟨rfl, rfl, rfl, rfl, rfl⟩

inductive Failure (u : SourceUnit) (fault : Fault) : Prop
  | indexing (fails : Table.ofSource u = .error fault)
  | analysis {t : Table} {j : Journal} {st : AnalysisState} (built : Table.ofSource u = .ok t)
      (fails : t.analyze { scopes := t.scopes, journal := j } = .error fault st)
  | rewriting {t : Table} {j j₁ j₂ : Journal} {st : AnalysisState} (built : Table.ofSource u = .ok t)
      (analyzed : t.analyze { scopes := t.scopes, journal := j } = .ok () st)
      (fails : t.promote st.analysis.promoted j₁ = .error fault j₂)

theorem failure_of_analyzeStage {t : Table}
    (built : Table.ofSource u = .ok t) (h : analyzeStage t j = .error fault j') : Failure u fault := by
  unfold analyzeStage at h
  cases hrun : t.analyze { scopes := t.scopes, journal := j } with
  | ok _ st =>
    rw [EStateM.run, hrun] at h
    cases h
  | error fault' st =>
    rw [EStateM.run, hrun] at h
    cases h
    exact .analysis built hrun

theorem failure_of_stages (h : stages u j = .error fault j') : Failure u fault := by
  rw [stages, Run.modify_bind] at h
  cases built : Table.ofSource u with
  | error fault' =>
    rw [built] at h
    cases h
    exact .indexing built
  | ok t =>
    rw [built] at h
    dsimp only at h
    rw [pure_bind, Run.modify_bind, Run.modify_bind] at h
    rcases Run.of_bind_error h with hanalysis | ⟨analysis, _, hanalysis, h⟩
    · exact failure_of_analyzeStage built hanalysis
    obtain ⟨st, hanalyzed, rfl, _⟩ := analyzeStage_ok hanalysis
    rw [Run.modify_bind, Run.modify_bind] at h
    rcases Run.of_bind_error h with hpromote | ⟨_, _, _, h⟩
    · exact .rewriting built hanalyzed hpromote
    · rw [Run.modify_bind] at h
      cases h

/-- a unit whose stages come through has no failure in any of them, with any journal -/
theorem not_failure_of_stages {done : Stages} (h : stages u j = .ok done j') : ¬ Failure u fault := by
  obtain ⟨built, ⟨j₁, st, hanalyzed, hanalysis⟩, j₂, j₃, hpromoted⟩ := stages_ok h
  rintro (fails | ⟨built', fails⟩ | ⟨built', analyzed, fails⟩)
  · rw [built] at fails
    cases fails
  · obtain ⟨st', hsame, -⟩ := Table.analyze_congr hanalyzed _
    cases built.symm.trans built'
    rw [hsame] at fails
    cases fails
  · cases built.symm.trans built'
    obtain ⟨st', hsame, hsettled⟩ := Table.analyze_congr hanalyzed _
    rw [hsame] at analyzed
    cases analyzed
    rw [hanalysis, ← hsettled] at hpromoted
    obtain ⟨j₄, hagain⟩ := Table.blind_promote _ _ hpromoted _
    rw [hagain] at fails
    cases fails

/-! ## how a run ends -/

theorem check_of_defective (h : u.hasErrors = true) : (∃ e, u.check = .error (.syntaxError e) ∧
        ∀ n, u.firstBroken? = some n → ∃ text, u.text n = .ok text) ∨
      ∃ n f, u.firstBroken? = some n ∧ u.text n = .error (.undecodable f) ∧
        u.check = .error (.undecodable f) := by
  rcases SourceUnit.check_of_hasErrors h with ⟨hnone, hcheck⟩ | ⟨n, hn, ⟨text, htext, _, hcheck⟩ | ⟨f, htext, hcheck⟩⟩
  · exact .inl ⟨_, hcheck, fun n hn => absurd (hnone.symm.trans hn) (by simp)⟩
  · refine .inl ⟨_, hcheck, fun n' hn' => ?_⟩
    cases hn.symm.trans hn'
    exact ⟨text, htext⟩
  · exact .inr ⟨n, f, hn, htext, hcheck⟩

section
variable {strict : Bool} {code : String} {tree : ParseTree}

theorem run_of_syntaxError {e : SyntaxError}
    (h : (SourceUnit.ofText code tree).check = .error (.syntaxError e)) :
    run strict code tree =
      .ok (failure strict code ("Parse Error: " ++ e.message) (opening strict)) := by
  unfold run
  rw [h]
  rfl

theorem run_of_undecodable {f : Utf8.Fault}
    (h : (SourceUnit.ofText code tree).check = .error (.undecodable f)) :
    run strict code tree = .error (.undecodable f) := by
  unfold run
  rw [h]

/-- behind the check no fault is lost: a run has a result, and says so if a stage failed -/
theorem run_of_sound (strict : Bool) (h : (SourceUnit.ofText code tree).hasErrors = false) :
    ∃ r j, run strict code tree = .ok (r, j) ∧
      ((∃ fault, Failure (.ofText code tree) fault ∧ ClosedWith strict code fault.internalMessage r) ∨
        (∀ fault, ¬ Failure (.ofText code tree) fault) ∧ r.errors = [] ∧ r.success = true) := by
  unfold run
  rw [SourceUnit.check_of_sound h]
  cases hstages : stages (.ofText code tree) (opening strict).endPhase with
  | ok done after =>
    simp only [EStateM.run, hstages]
    exact ⟨_, _, rfl, .inr ⟨fun _ => not_failure_of_stages hstages, rfl, rfl⟩⟩
  | error fault after =>
    simp only [EStateM.run, hstages]
    exact ⟨_, _, rfl, .inl ⟨fault, failure_of_stages hstages, closedWith_failure _ _ _ _⟩⟩

end

/-- A run has no result exactly if its tree is defective and the text of the first broken part cannot be decoded. All other
failures leave the text unchanged, and a run without a failure counts as successful. -/
theorem run_fails_closed (strict : Bool) (code : String) (tree : ParseTree) :
    let u := SourceUnit.ofText code tree
    (∀ fault, run strict code tree = .error fault ↔
        u.hasErrors = true ∧ ∃ n, u.firstBroken? = some n ∧ u.text n = .error fault) ∧
      ((u.hasErrors = true → ∀ n, u.firstBroken? = some n → ∃ text, u.text n = .ok text) →
        ∃ r j, run strict code tree = .ok (r, j)) ∧
      ∀ r j, run strict code tree = .ok (r, j) →
        (u.hasErrors = true → ∃ e, u.check = .error (.syntaxError e) ∧
          ClosedWith strict code ("Parse Error: " ++ e.message) r) ∧
        (u.hasErrors = false →
          (∃ fault, Failure u fault ∧ ClosedWith strict code fault.internalMessage r) ∨
            (∀ fault, ¬ Failure u fault) ∧ r.errors = [] ∧ r.success = true) := by
  intro u
  by_cases hdefective : u.hasErrors = true
  · rcases check_of_defective hdefective with ⟨e, hcheck, hreadable⟩ | ⟨n, f, hbroken, htext, hcheck⟩
    · rw [run_of_syntaxError hcheck]
      refine ⟨fun fault => iff_of_false nofun ?_, fun _ => ⟨_, _, rfl⟩, fun r j hresult => ?_⟩
      · rintro ⟨-, n, hbroken, hfault⟩
        obtain ⟨text, htext⟩ := hreadable n hbroken
        rw [htext] at hfault
        cases hfault
      · have hr : r = (failure strict code ("Parse Error: " ++ e.message) (opening strict)).1 :=
          congrArg Prod.fst (Except.ok.inj hresult).symm
        exact ⟨fun _ => ⟨e, hcheck, hr ▸ closedWith_failure _ _ _ _⟩,
          fun hsound => absurd hdefective (hsound ▸ Bool.false_ne_true)⟩
    · rw [run_of_undecodable hcheck]
      refine ⟨fun fault => ⟨fun h => ?_, ?_⟩, fun hreadable => ?_, fun r j h => nomatch h⟩
      · cases h
        exact ⟨hdefective, n, hbroken, htext⟩
      · rintro ⟨-, n', hbroken', hfault⟩
        cases hbroken.symm.trans hbroken'
        rw [htext] at hfault
        cases hfault
        rfl
      · obtain ⟨text, htext'⟩ := hreadable hdefective n hbroken
        rw [htext] at htext'
        cases htext'
  · have hsound : u.hasErrors = false := Bool.eq_false_iff.mpr hdefective
    obtain ⟨r, j, hrun, hends⟩ := run_of_sound strict hsound
    rw [hrun]
    refine ⟨fun fault => iff_of_false nofun fun h => hdefective h.1, fun _ => ⟨r, j, rfl⟩,
      fun r' j' hresult => ?_⟩
    cases hresult
    exact ⟨fun h => absurd h hdefective, fun _ => hends⟩

/-- one letter of two bytes, in a tree with a broken part that covers the first of them -/
def tornTree : ParseTree where
  root := ⟨"program", true, false, 0, 2, none, [⟨"ERROR", true, false, 0, 1, none, []⟩]⟩

theorem torn_has_no_result :
    run false "é" tornTree = .error (.undecodable ⟨0, 0, 0xc3, .endOfData⟩) :=
  run_of_undecodable rfl

end Refactoring

end StaticPromotion
