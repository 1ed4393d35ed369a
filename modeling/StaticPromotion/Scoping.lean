import StaticPromotion.Syntax.Plan
import StaticPromotion.Syntax.SourceUnit

/-!
# Carrying out the steps of a plan

`Step.perform` does to the scopes what a step says, and tells what is left to do with it: an `Action` names the part and
the scope to go on in. The walks over code differ only in what they do with actions.
-/

namespace StaticPromotion

/-- declares the texts of some identifiers -/
def Scopes.declareNodes (s : Scopes) (source : SourceUnit) (scope : ScopeId) (names : List Node) :
    Except Fault Scopes := do
  return s.declareAll scope (← names.mapM source.text)

/-- a new scope in which the texts of some identifiers are declared -/
def Scopes.childDeclaring (s : Scopes) (source : SourceUnit) (parent : ScopeId) (label : String)
    (names : List Node) : Except Fault (ScopeId × Scopes) := do
  let (scope, s) := s.child parent label
  return (scope, ← s.declareNodes source scope names)

/-- the scope of a place; a fresh one is made on the way -/
def Place.locate (source : SourceUnit) (here inner : ScopeId) :
    Place → Scopes → Except Fault (ScopeId × Scopes)
  | .here, s => .ok (here, s)
  | .inner, s => .ok (inner, s)
  | .fresh below label names, s => do
    let (parent, s) ← below.locate source here inner s
    s.childDeclaring source parent label names

inductive Action where
  | none
  | visit (part : Node) (scope : ScopeId)
  | caseConstant (name : Node) (scope : ScopeId)
  | localClass (declaration : Node) (scope : ScopeId)
  | anonymousClass (creation body : Node) (scope : ScopeId)

/-- the result of a step: what is left to do, and the inner scope from then on -/
structure Progress where
  action : Action := .none
  inner : ScopeId
  scopes : Scopes

def Step.perform (source : SourceUnit) (here inner : ScopeId) (s : Scopes) :
    Step → Except Fault Progress
  | .enter label names => do
    let (opened, s) ← s.childDeclaring source here label names
    return { inner := opened, scopes := s }
  | .declare name place => do
    let (scope, s) ← place.locate source here inner s
    return { inner, scopes := ← s.declareNodes source scope [name] }
  | .visit part place => do
    let (scope, s) ← place.locate source here inner s
    return { action := .visit part scope, inner, scopes := s }
  | .caseConstant name => .ok { action := .caseConstant name here, inner, scopes := s }
  | .localClass declaration => .ok { action := .localClass declaration here, inner, scopes := s }
  | .anonymousClass creation body =>
    .ok { action := .anonymousClass creation body here, inner, scopes := s }

end StaticPromotion
