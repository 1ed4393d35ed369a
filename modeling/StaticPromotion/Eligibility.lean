/-!
# Which candidates can become static together

A candidate that does not use its instance directly still calls others. It is eligible once all it calls are. The set
grows from the bottom: a pass admits every candidate whose callees are admitted already, or were eligible before, and
the growth stops at the first pass that admits nothing. So a cycle of calls without another way in is never admitted.

* `passes prior proven pending`   what each pass admits, `pending` being candidates with their callees;
* `Resolution`                    the passes and the candidates left over; `eligible` is what was admitted;
* `Blocker`                       why a candidate was left over, with its wording.

The methods are of any type with decidable equality.
-/

namespace StaticPromotion.Eligibility

variable {μ : Type} [DecidableEq μ]

/-! ## passes -/

/-- all callees are admitted already or were eligible before -/
def isReady (prior proven : List μ) (candidate : μ × List μ) : Bool :=
  candidate.2.all fun callee => proven.contains callee || prior.contains callee

def ready (prior proven : List μ) (pending : List (μ × List μ)) : List (μ × List μ) :=
  pending.filter (isReady prior proven)

def waiting (prior proven : List μ) (pending : List (μ × List μ)) : List (μ × List μ) :=
  pending.filter fun candidate => !isReady prior proven candidate

theorem length_waiting_lt (prior proven : List μ) (pending : List (μ × List μ))
    (h : ready prior proven pending ≠ []) :
    (waiting prior proven pending).length < pending.length := by
  obtain ⟨m, hm⟩ := List.exists_mem_of_ne_nil _ h
  refine List.length_filter_lt_length_iff_exists.mpr ⟨m, (List.mem_filter.mp hm).1, ?_⟩
  simp [(List.mem_filter.mp hm).2]

def passes (prior proven : List μ) (pending : List (μ × List μ)) : List (List μ) :=
  if ready prior proven pending = [] then []
  else
    let admitted := (ready prior proven pending).map (·.1)
    admitted :: passes prior (proven ++ admitted) (waiting prior proven pending)
termination_by pending.length
decreasing_by exact length_waiting_lt _ _ _ ‹_›

structure Resolution (μ : Type) where
  passes : List (List μ)
  leftOver : List μ
deriving Repr

def Resolution.eligible (r : Resolution μ) : List μ :=
  r.passes.flatten

def resolve (prior : List μ) (candidates : List (μ × List μ)) : Resolution μ :=
  let admitted := passes prior [] candidates
  { passes := admitted
    leftOver := (candidates.map (·.1)).filter fun m => !admitted.flatten.contains m }

/-! ## why a candidate is left over -/

inductive Blocker (μ : Type) where
  /-- no callee is in the way -/
  | unnamed
  /-- the first callee in the way is the candidate itself -/
  | itself
  | callee (m : μ)
deriving DecidableEq, Repr

/-- the element with the least key, the first one among equals -/
def leastBy? {α : Type} (key : α → Int) : List α → Option α
  | [] => none
  | x :: rest =>
    match leastBy? key rest with
    | none => some x
    | some y => if key y < key x then some y else some x

def blocker (line : μ → Int) (eligible : List μ) (m : μ) (callees : List μ) : Blocker μ :=
  match leastBy? line (callees.filter fun c => !eligible.contains c) with
  | none => .unnamed
  | some c => if c = m then .itself else .callee c

def Blocker.message (name : μ → String) : Blocker μ → String
  | .unnamed => "depends on an ineligible method"
  | .itself => "recursive call never reaches a static exit"
  | .callee m => s!"calls '{name m}', which cannot be made static"

end StaticPromotion.Eligibility
