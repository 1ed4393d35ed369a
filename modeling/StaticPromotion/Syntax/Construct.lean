import StaticPromotion.Syntax.Node

/-!
# What a kind of node is to the analysis

Kinds are text; the analysis needs far fewer cases. `Construct.ofKind` sorts every kind into one of them, so that
the walks over code are by cases on `Construct`: a construct that opens or fills scopes, one that is a use of a
name or a receiver, one whose named children are evaluated in order (`transparent`), one with nothing to evaluate
(`inert`), or `unknown`.

* `ClassKind`        the flavours of class-shaped declarations;
* `ClassKind.ofKind?`   the flavour that a declaration's kind announces;
* `isTypeKind`       the kinds of type syntax;
* `isModifierWord`   the keywords that stand in a modifier list.
-/

namespace StaticPromotion

/-! ## declarations -/

inductive ClassKind where
  | ordinary
  | interface
  | enumeration
  | record
  | annotationType
  | anonymous
deriving DecidableEq, Repr, Inhabited

def ClassKind.label : ClassKind → String
  | .ordinary => "class"
  | .interface => "interface"
  | .enumeration => "enum"
  | .record => "record"
  | .annotationType => "annotation"
  | .anonymous => "anonymous"

def ClassKind.ofKind? : String → Option ClassKind
  | "class_declaration" => some .ordinary
  | "interface_declaration" => some .interface
  | "enum_declaration" => some .enumeration
  | "record_declaration" => some .record
  | "annotation_type_declaration" => some .annotationType
  | _ => none

/-- the members of an interface or annotation type are static without saying so -/
def ClassKind.isInterface : ClassKind → Bool
  | .interface | .annotationType => true
  | _ => false

def modifierWords : List String :=
  ["public", "protected", "private", "abstract", "static", "final", "strictfp", "default",
    "synchronized", "native", "transient", "volatile", "sealed", "non-sealed"]

def isModifierWord (kind : String) : Bool :=
  modifierWords.contains kind

/-! ## kinds without evaluation -/

def typeKinds : List String :=
  ["type_identifier", "scoped_type_identifier", "generic_type", "array_type", "integral_type",
    "floating_point_type", "boolean_type", "void_type", "type_arguments", "wildcard", "dimensions",
    "annotated_type", "type_parameters", "type_parameter", "type_bound", "catch_type", "throws",
    "type_list"]

def isTypeKind (kind : String) : Bool :=
  typeKinds.contains kind

def literalKinds : List String :=
  ["decimal_integer_literal", "hex_integer_literal", "octal_integer_literal",
    "binary_integer_literal", "decimal_floating_point_literal", "hex_floating_point_literal",
    "true", "false", "character_literal", "string_literal", "null_literal"]

def inertKinds : List String :=
  ["line_comment", "block_comment", "modifiers", "marker_annotation", "annotation",
    "break_statement", "continue_statement", "asterisk", "class_literal", "empty_statement", ";"]

def transparentKinds : List String :=
  ["expression_statement", "return_statement", "yield_statement", "throw_statement",
    "assert_statement", "do_statement", "synchronized_statement", "parenthesized_expression",
    "unary_expression", "update_expression", "cast_expression", "assignment_expression",
    "array_access", "array_initializer", "array_creation_expression", "dimensions_expr",
    "argument_list", "finally_clause", "switch_expression", "switch_block", "guard",
    "element_value_array_initializer", "template_expression", "string_interpolation"]

/-! ## constructs -/

inductive Construct where
  /-- a list of statements in a scope of its own -/
  | block
  | localVariables
  | classDeclaration (kind : ClassKind)
  | forLoop
  | forEach
  | whileLoop
  /-- an `if` statement or a `?:` expression -/
  | conditional
  | binary
  | catchClause
  | tryResources
  | tryStatement
  | lambda
  | caseGroup
  | caseRule
  | caseLabel
  | instanceTest
  | labeled
  | creation
  | identifier
  /-- `this` or `super` standing alone -/
  | receiver
  | fieldAccess
  | invocation
  | methodReference
  | constructorCall
  | transparent
  | inert
  | unknown
deriving DecidableEq, Repr

def Construct.ofSpecial? : String → Option Construct
  | "block" | "constructor_body" => some .block
  | "local_variable_declaration" => some .localVariables
  | "for_statement" => some .forLoop
  | "enhanced_for_statement" => some .forEach
  | "while_statement" => some .whileLoop
  | "if_statement" | "ternary_expression" => some .conditional
  | "binary_expression" => some .binary
  | "catch_clause" => some .catchClause
  | "try_with_resources_statement" => some .tryResources
  | "try_statement" => some .tryStatement
  | "lambda_expression" => some .lambda
  | "switch_block_statement_group" => some .caseGroup
  | "switch_rule" => some .caseRule
  | "switch_label" => some .caseLabel
  | "instanceof_expression" => some .instanceTest
  | "labeled_statement" => some .labeled
  | "object_creation_expression" => some .creation
  | "identifier" => some .identifier
  | "this" | "super" => some .receiver
  | "field_access" => some .fieldAccess
  | "method_invocation" => some .invocation
  | "method_reference" => some .methodReference
  | "explicit_constructor_invocation" => some .constructorCall
  | _ => none

def Construct.ofKind (kind : String) : Construct :=
  match ofSpecial? kind, ClassKind.ofKind? kind with
  | some construct, _ => construct
  | none, some flavour => .classDeclaration flavour
  | none, none =>
    if transparentKinds.contains kind then .transparent
    else if isTypeKind kind || literalKinds.contains kind || inertKinds.contains kind then .inert
    else .unknown

def Node.construct (n : Node) : Construct :=
  .ofKind n.kind

/-- the keyword modifiers in a declaration's first modifier list, with that list -/
def Node.modifiers (n : Node) : List String × Option Node :=
  match n.children.find? (·.kind == "modifiers") with
  | none => ([], none)
  | some list => ((list.children.map (·.kind)).filter isModifierWord, some list)

end StaticPromotion
