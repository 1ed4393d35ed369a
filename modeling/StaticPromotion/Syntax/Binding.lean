import StaticPromotion.Syntax.Node

/-!
# Names bound by patterns and conditions

* `patternNames n`       the identifiers that a pattern binds, left to right, also in nested record patterns;
* `bindings outcome n`   the identifiers bound once the condition `n` has come out as `outcome`: an `instanceof`
                         binds when true, `!` turns the outcome round, `&&` passes it on to both operands when
                         true and `||` when false, and parentheses are looked through. Anything else binds nothing;
* `argumentCount`        the expressions in an argument list.

Comments count neither as arguments nor as the content of parentheses.
-/

namespace StaticPromotion.Node

/-! ## patterns -/

def isPatternPart (kind : String) : Bool :=
  ["pattern", "type_pattern", "record_pattern", "record_pattern_body",
    "record_pattern_component"].contains kind

/-- the patterns that a `case` label can hold -/
def isPattern (kind : String) : Bool :=
  ["pattern", "type_pattern", "record_pattern"].contains kind

def isIdentifier (n : Node) : Bool :=
  n.kind == "identifier"

mutual

def patternNames : Node → List Node
  | ⟨kind, _, _, _, _, _, children⟩ =>
    if kind == "type_pattern" then (children.filter (·.named)).filter isIdentifier
    else patternNamesIn (kind == "record_pattern_component") children

/-- of the parts of a pattern; a component may name its variable itself -/
def patternNamesIn (component : Bool) : List Node → List Node
  | [] => []
  | c :: rest =>
    if !c.named then patternNamesIn component rest
    else if isPatternPart c.kind then patternNames c ++ patternNamesIn component rest
    else if component && c.isIdentifier then c :: patternNamesIn component rest
    else patternNamesIn component rest

end

/-! ## conditions -/

/-- the kind of a node's operator -/
def operatorKind (children : List Node) : String :=
  ((children.find? (inField "operator")).map (·.kind)).getD ""

def contents (children : List Node) : List Node :=
  children.filter fun c => c.named && !c.isComment

/-- whether an operator hands its outcome on to both operands -/
def sharesOutcome (operator : String) (outcome : Bool) : Bool :=
  (operator == "&&" && outcome) || (operator == "||" && !outcome)

mutual

def bindings (outcome : Bool) : Node → List Node
  | ⟨kind, _, _, _, _, _, children⟩ =>
    if kind == "parenthesized_expression" then
      if (contents children).length = 1 then bindingsOfContent outcome children else []
    else if kind == "unary_expression" then
      if operatorKind children == "!" then bindingsAt "operand" (!outcome) children else []
    else if kind == "binary_expression" then
      if sharesOutcome (operatorKind children) outcome then
        bindingsAt "left" outcome children ++ bindingsAt "right" outcome children
      else []
    else if kind == "instanceof_expression" && outcome then
      (children.find? (inField "name")).toList ++
        ((children.find? (inField "pattern")).map patternNames).getD []
    else []

/-- of the first child in a field -/
def bindingsAt (f : String) (outcome : Bool) : List Node → List Node
  | [] => []
  | c :: rest => if inField f c then bindings outcome c else bindingsAt f outcome rest

/-- of the first child that is no comment -/
def bindingsOfContent (outcome : Bool) : List Node → List Node
  | [] => []
  | c :: rest =>
    if c.named && !c.isComment then bindings outcome c else bindingsOfContent outcome rest

end

/-- of a condition that may be absent -/
def conditionBindings (condition : Option Node) (outcome : Bool) : List Node :=
  (condition.map (bindings outcome)).getD []

/-! ## arguments -/

def argumentCount : Option Node → Nat
  | none => 0
  | some arguments => (contents arguments.children).length

end StaticPromotion.Node
