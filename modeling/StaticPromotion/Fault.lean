import StaticPromotion.Text.Utf8

/-!
# What can go wrong with a unit

A `Fault` is a cause: the text is not a unit of the language, a range of bytes is not UTF-8, or declarations are
nested in themselves without end. The wording of each is in `SyntaxError.message` and `Fault.internalMessage`.
-/

namespace StaticPromotion

/-- the first part of a tree that could not be read, by the start of its text and its place; `unlocated` if the
tree is said to be defective and no part of it is -/
inductive SyntaxError where
  | near (snippet : String) (line column : Nat)
  | unlocated
deriving DecidableEq, Repr

def SyntaxError.message : SyntaxError → String
  | .near snippet line column => s!"Syntax error near '{snippet}' (line {line}, col {column})"
  | .unlocated => "Syntax error"

inductive Fault where
  | syntaxError (e : SyntaxError)
  | undecodable (f : Utf8.Fault)
  | nestedWithoutEnd
deriving DecidableEq, Repr

def Fault.text : Fault → String
  | .syntaxError e => e.message
  | .undecodable f => f.message
  | .nestedWithoutEnd => "maximum recursion depth exceeded"

/-- the message of a fault met after parsing -/
def Fault.internalMessage (fault : Fault) : String :=
  match fault with
  | .syntaxError e => s!"Internal Error: ParseError: {e.message}"
  | .undecodable f => s!"Internal Error: UnicodeDecodeError: {f.message}"
  | .nestedWithoutEnd => s!"Internal Error: RecursionError: {fault.text}"

end StaticPromotion
