import StaticPromotion.Access
import StaticPromotion.Candidate
import StaticPromotion.Eligibility
import StaticPromotion.Journal

/-!
# The analysis of a unit

Every class is visited in source order, before the classes nested in it. A visit classifies the candidates of the class,
resolves which of them are eligible given all that were found eligible before, and settles them for good.

* `Decision`, `Outcome`   what is settled for a candidate;
* `Analysis`              all outcomes, the eligible methods and the visited classes, so far;
* `Table.tour`            the order of the visits: a class is entered, the classes nested in it are toured, it is left;
* `Analysis.enter`, `Analysis.leave`   the two halves of a visit;
* `Table.analyze`         the tours of all top-level classes.
-/

namespace StaticPromotion

open Eligibility

/-! ## outcomes -/

inductive Decision where
  | eligible
  | instanceAccess (finding : Finding)
  | pruned (blocker : Blocker MethodId)
deriving DecidableEq, Repr

def Decision.label : Decision → String
  | .eligible => "eligible"
  | .instanceAccess _ => "instance access"
  | .pruned _ => "pruned"

/-- why the method stays as it is; empty for an eligible one -/
def Decision.reason (t : Table) : Decision → String
  | .eligible => ""
  | .instanceAccess finding => finding.message
  | .pruned blocker => blocker.message t.qualifiedName

structure Outcome where
  method : MethodId
  decision : Decision
deriving DecidableEq, Repr

def Outcome.isEligible (o : Outcome) : Bool :=
  o.decision == .eligible

structure Analysis where
  eligible : List MethodId := []
  outcomes : List Outcome := []
  visited : List ClassId := []

namespace Analysis

def promoted (a : Analysis) : List MethodId :=
  (a.outcomes.filter (·.isEligible)).map (·.method)

def retained (a : Analysis) : List Outcome :=
  a.outcomes.filter fun o => !o.isEligible

end Analysis

/-! ## the visit of a class -/

/-- what a visit reads and extends -/
structure AnalysisState where
  analysis : Analysis := {}
  scopes : Scopes
  journal : Journal := {}

abbrev Analyzing := EStateM Fault AnalysisState

namespace Analysis

def keep (change : Journal → Journal) : Analyzing Unit :=
  modify fun st => { st with journal := change st.journal }

def announce (t : Table) (c : ClassId) (state : String) : Analyzing Unit :=
  keep (·.debug s!"{t.displayName c}: {state}")

def sortTexts (texts : List String) : List String :=
  texts.mergeSort fun a b => !(b < a)

def sortedNames (t : Table) (methods : List MethodId) : List String :=
  sortTexts (methods.map t.qualifiedName)

def verdictLine (t : Table) (m : MethodId) : Verdict → String
  | .access f => s!"{t.qualifiedName m}: instance access ({f.reason.message}, line {f.line})"
  | .clear edges => s!"{t.qualifiedName m}: no direct access, {edges.length} edge(s)"

def classify (t : Table) (m : MethodId) : Analyzing (MethodId × Verdict) := do
  match t.classify (← get).scopes m with
  | .error fault => throw fault
  | .ok (verdict, scopes) =>
    modify fun st => { st with scopes }
    keep (·.debug (verdictLine t m verdict))
    return (m, verdict)

/-- the candidates without direct access, with their callees -/
def callees (verdicts : List (MethodId × Verdict)) : List (MethodId × List MethodId) :=
  verdicts.filterMap fun v =>
    match v.2 with
    | .access _ => none
    | .clear edges => some (v.1, edges)

/-- the passes with their numbers, from one -/
def numbered (passes : List (List MethodId)) : List (Nat × List MethodId) :=
  passes.zipIdx.map fun pass => (pass.2 + 1, pass.1)

def logResolution (t : Table) (r : Resolution MethodId) : Analyzing Unit := do
  (numbered r.passes).forM fun (index, admitted) =>
    keep (·.debug s!"Resolver pass {index} admitted {Text.quotedList (sortedNames t admitted)}")
  if !r.leftOver.isEmpty then
    keep (·.debug s!"Resolver left {Text.quotedList (sortedNames t r.leftOver)} without a static exit")

def settle (t : Table) (admitted eligible : List MethodId) (m : MethodId) : Verdict → Decision
  | .access finding => .instanceAccess finding
  | .clear edges =>
    if admitted.contains m then .eligible
    else .pruned (blocker (fun k => (t.method k).line) eligible m edges)

/-- the union, the first list in front -/
def merge (xs ys : List MethodId) : List MethodId :=
  xs ++ ys.filter fun m => !xs.contains m

def enter (t : Table) (c : ClassId) : Analyzing Unit := do
  announce t c "entering_class"
  keep (·.startPhase s!"Class {t.displayName c}" s!"line {(t.decl c).line}")
  announce t c "collecting_candidates"
  announce t c "classifying"
  let verdicts ← (t.candidates c).mapM (classify t)
  announce t c "resolving"
  let before := (← get).analysis.eligible
  let resolution := resolve before (callees verdicts)
  logResolution t resolution
  (numbered resolution.passes).forM fun (index, admitted) =>
    keep (·.record (.resolverPass (t.displayName c) index (sortedNames t admitted)))
  announce t c "merging_global_set"
  let eligible := merge before resolution.eligible
  let outcomes := verdicts.map fun v =>
    { method := v.1, decision := settle t resolution.eligible eligible v.1 v.2 : Outcome }
  outcomes.forM fun o =>
    keep (·.record (.inspection (t.qualifiedName o.method) o.decision.label (o.decision.reason t)))
  modify fun st => { st with
    analysis := {
      eligible
      outcomes := st.analysis.outcomes ++ outcomes
      visited := st.analysis.visited ++ [c] } }
  announce t c "recursing_into_nested_scopes"

def leave (t : Table) (c : ClassId) : Analyzing Unit := do
  announce t c "done"
  keep (·.endPhase)

end Analysis

/-! ## the tour -/

inductive Stop where
  | enter (c : ClassId)
  | leave (c : ClassId)
deriving DecidableEq, Repr

namespace Table

/-- the tour of a class; `depth` bounds the nesting, and the number of classes is enough -/
def tourWithin (t : Table) : Nat → ClassId → List Stop
  | 0, _ => []
  | depth + 1, c => .enter c :: (t.nestedClasses c).flatMap (t.tourWithin depth) ++ [.leave c]

def tour (t : Table) (c : ClassId) : List Stop :=
  t.tourWithin t.classes.size c

def visitClass (t : Table) (c : ClassId) : Analyzing Unit :=
  (t.tour c).forM fun
    | .enter c => Analysis.enter t c
    | .leave c => Analysis.leave t c

def analyze (t : Table) : Analyzing Unit :=
  t.topLevelClasses.forM t.visitClass

end Table

end StaticPromotion
