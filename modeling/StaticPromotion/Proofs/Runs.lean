/-!
# Runs of steps that carry a state and may stop

A step of type `EStateM ε σ α` takes a state to a result: a value with a new state, or an error with the state in which
it struck. Proofs take such a step apart at its binds and never unfold the monad.

* `Run.after`                             the state in which a step ends, with a value or with an error;
* `Run.bind_of_ok`, `Run.bind_of_error`   what a bind does once its first half is known;
* `Run.of_bind_ok`, `Run.of_bind_error`   a bind that succeeded or stopped, taken apart;
* `Run.of_except_bind`                    the same for a computation without a state.
-/

namespace StaticPromotion.Run

variable {ε σ α β : Type} {f : α → EStateM ε σ β} {x : EStateM ε σ α}

def after : EStateM.Result ε σ α → σ
  | .ok _ s => s
  | .error _ s => s

@[simp] theorem after_ok (a : α) (s : σ) : after (.ok a s : EStateM.Result ε σ α) = s := rfl

@[simp] theorem after_error (e : ε) (s : σ) : after (.error e s : EStateM.Result ε σ α) = s := rfl

@[simp] theorem after_modify (f : σ → σ) (s : σ) : after ((modify f : EStateM ε σ PUnit) s) = f s := rfl

/-- the value of a step, if it has one -/
def value? : EStateM.Result ε σ α → Option α
  | .ok a _ => some a
  | .error _ _ => none

theorem of_value?_any {r : EStateM.Result ε σ α} {p : α → Bool} (h : (value? r).any p = true) :
    ∃ a s, r = .ok a s ∧ p a = true := by
  cases r with
  | ok a s => exact ⟨a, s, rfl, h⟩
  | error e s => cases h

theorem get_bind (f : σ → EStateM ε σ β) (s : σ) : (get >>= f : EStateM ε σ β) s = f s s := rfl

theorem modify_bind (change : σ → σ) (f : PUnit → EStateM ε σ β) (s : σ) :
    (modify change >>= f : EStateM ε σ β) s = f ⟨⟩ (change s) := rfl

theorem bind_of_ok {s s₁ : σ} {a : α} (h : x s = .ok a s₁) : (x >>= f) s = f a s₁ := by
  show EStateM.bind x f s = _
  rw [EStateM.bind, h]

theorem bind_of_error {s s₁ : σ} {e : ε} (h : x s = .error e s₁) : (x >>= f) s = .error e s₁ := by
  show EStateM.bind x f s = _
  rw [EStateM.bind, h]

theorem of_bind_ok {s s' : σ} {b : β} (h : (x >>= f) s = .ok b s') :
    ∃ a s₁, x s = .ok a s₁ ∧ f a s₁ = .ok b s' := by
  cases hx : x s with
  | ok a s₁ =>
    rw [bind_of_ok hx] at h
    exact ⟨a, s₁, rfl, h⟩
  | error e s₁ =>
    rw [bind_of_error hx] at h
    cases h

theorem of_bind_error {s s' : σ} {e : ε} (h : (x >>= f) s = .error e s') :
    x s = .error e s' ∨ ∃ a s₁, x s = .ok a s₁ ∧ f a s₁ = .error e s' := by
  cases hx : x s with
  | ok a s₁ =>
    rw [bind_of_ok hx] at h
    exact .inr ⟨a, s₁, rfl, h⟩
  | error e' s₁ =>
    rw [bind_of_error hx] at h
    cases h
    exact .inl rfl

theorem of_except_bind {x : Except ε α} {f : α → Except ε β} {b : β} (h : x >>= f = .ok b) :
    ∃ a, x = .ok a ∧ f a = .ok b := by
  cases x with
  | ok a => exact ⟨a, rfl, h⟩
  | error e => cases h

theorem of_toOption_any {x : Except ε α} {p : α → Bool} (h : x.toOption.any p = true) :
    ∃ a, x = .ok a ∧ p a = true := by
  cases x with
  | ok a => exact ⟨a, rfl, h⟩
  | error e => cases h

theorem of_toOption_eq {x : Except ε α} {a : α} (h : x.toOption = some a) : x = .ok a := by
  cases x with
  | ok b =>
    cases h
    rfl
  | error e => cases h

end StaticPromotion.Run
