import StaticPromotion.Scope
import StaticPromotion.Syntax.Binding
import StaticPromotion.Syntax.Construct

/-!
# What code does to scopes

Two walks go over the same code: one finds the classes declared in it, the other the uses of an instance. Both need the
same scoping rules, so the rules are data: the plan of a node is the list of steps that evaluate it, in order.

* `Place`      where a step happens: in the scope that the construct stands in, in the scope that it opened, or in a fresh
               scope below one of these, with some identifiers declared in it;
* `Step`       open the inner scope, declare an identifier, go on to a part, or meet a class declaration, a class body or a
               bare `case` constant;
* `Node.plan`  the steps of a node. Every node in it lies strictly below the planned one, save for a class declaration or
               creation, which stands in its own plan: what to do with it is up to the walk.

A statement that declares nothing for the statements after it is visited in a fresh scope; the branches of a condition are
visited in fresh scopes that hold what the condition binds.
-/

namespace StaticPromotion

inductive Place where
  /-- the scope that the construct stands in -/
  | here
  /-- the scope that the construct opened -/
  | inner
  /-- a fresh scope with a label and some identifiers -/
  | fresh (below : Place) (label : String) (names : List Node)

inductive Step where
  /-- opens the inner scope -/
  | enter (label : String) (names : List Node)
  | declare (name : Node) (place : Place)
  | visit (part : Node) (place : Place)
  /-- a bare identifier after `case`: it may be a constant of the selector's type -/
  | caseConstant (name : Node)
  /-- a class declared by a statement -/
  | localClass (declaration : Node)
  /-- the body of a class declared by a creation -/
  | anonymousClass (creation : Node) (body : Node)

namespace Node

/-! ## parts of plans -/

def visitAll (place : Place) (parts : List Node) : List Step :=
  parts.map (.visit · place)

def visitField (n : Node) (f : String) (place : Place) : List Step :=
  visitAll place (n.child? f).toList

/-- what it declares is for the statements after it -/
def declaresForward (n : Node) : Bool :=
  match n.construct with
  | .localVariables | .caseLabel | .classDeclaration _ => true
  | _ => false

def statementLabel : String := "statement"

/-- the statements of the inner scope -/
def visitStatements (statements : List Node) : List Step :=
  statements.map fun s =>
    .visit s (if s.declaresForward then .inner else .fresh .inner statementLabel [])

/-- declares each declarator's name, then goes on to its value -/
def declaratorSteps (n : Node) (place : Place) : List Step :=
  (n.childrenAt "declarator").flatMap fun d =>
    (d.child? "name").toList.map (.declare · place) ++
      d.visitField "value" (.fresh place Scopes.blockLabel [])

/-- a resource declared in place, or any expression -/
def resourceSteps (resource : Node) : List Step :=
  match resource.child? "name" with
  | some name => .declare name .inner :: resource.visitField "value" (.fresh .inner Scopes.blockLabel [])
  | none => visitAll .inner resource.namedChildren

/-- a fresh scope with what a condition binds when it comes out as `outcome` -/
def branch (below : Place) (condition : Option Node) (outcome : Bool) : Place :=
  .fresh below (if outcome then "when_true" else "when_false") (conditionBindings condition outcome)

/-- the identifiers that a parameter list declares; a lambda may have a bare identifier for it -/
def parameterNames (parameters : Node) : List Node :=
  if parameters.isIdentifier then [parameters]
  else
    parameters.namedChildren.flatMap fun p =>
      if p.isIdentifier then [p]
      else if p.kind == "formal_parameter" then (p.child? "name").toList
      else if p.kind == "spread_parameter" then
        (p.namedChildren.filter (·.kind == "variable_declarator")).flatMap fun d =>
          (d.child? "name").toList
      else []

/-- declares patterns and meets constants in order, and visits the rest after them -/
def caseLabelSteps (n : Node) : List Step :=
  (n.namedChildren.flatMap fun c =>
    if isPattern c.kind then c.patternNames.map (.declare · .here)
    else if c.isIdentifier then [.caseConstant c]
    else []) ++
  visitAll .here (n.namedChildren.filter fun c => !isPattern c.kind && !c.isIdentifier)

/-- the parts of a creation: types are skipped -/
def creationSteps (n : Node) (parts : List Node) : List Step :=
  (parts.filter fun c => !isTypeKind c.kind).map fun c =>
    if c.kind == "class_body" then .anonymousClass n c else .visit c .here

/-! ## the plan of a node -/

def plan (n : Node) : List Step :=
  let condition := n.child? "condition"
  match n.construct with
  | .block => .enter Scopes.blockLabel [] :: visitStatements n.namedChildren
  | .localVariables => n.declaratorSteps .here
  | .classDeclaration _ => [.localClass n]
  | .forLoop =>
    .enter "for" [] ::
      (visitStatements (n.namedBut "body") ++ n.visitField "body" (branch .inner condition true))
  | .conditional =>
    n.visitField "condition" .here ++
      n.visitField "consequence" (branch .here condition true) ++
      n.visitField "alternative" (branch .here condition false)
  | .whileLoop =>
    n.visitField "condition" .here ++ n.visitField "body" (branch .here condition true)
  | .binary =>
    match n.childKind "operator" with
    | "&&" =>
      n.visitField "left" .here ++ n.visitField "right" (branch .here (n.child? "left") true)
    | "||" =>
      n.visitField "left" .here ++ n.visitField "right" (branch .here (n.child? "left") false)
    | _ => visitAll .here n.namedChildren
  | .forEach =>
    n.visitField "value" (.fresh .here Scopes.blockLabel []) ++
      .enter "for" (n.child? "name").toList :: n.visitField "body" .inner
  | .catchClause =>
    let names := (n.namedChildren.filter (·.kind == "catch_formal_parameter")).flatMap fun p =>
      (p.child? "name").toList
    .enter "catch" names :: n.visitField "body" .inner
  | .tryResources =>
    let resources := ((n.child? "resources").map namedChildren).getD []
    .enter "try" [] ::
      (resources.flatMap resourceSteps ++ n.visitField "body" .inner ++
        visitAll .here (n.namedChildren.filter fun c =>
          c.kind == "catch_clause" || c.kind == "finally_clause"))
  | .lambda =>
    .enter "lambda" (((n.child? "parameters").map parameterNames).getD []) ::
      n.visitField "body" .inner
  | .caseGroup => .enter "case" [] :: visitStatements n.namedChildren
  | .caseRule => .enter "case" [] :: visitAll .inner n.namedChildren
  | .caseLabel => n.caseLabelSteps
  | .instanceTest => n.visitField "left" .here
  | .labeled => visitAll .here (n.namedChildren.filter fun c => !c.isIdentifier)
  | .creation => n.creationSteps n.namedChildren
  | _ => visitAll .here n.namedChildren

end Node

end StaticPromotion
