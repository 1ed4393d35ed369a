import StaticPromotion.Fault
import StaticPromotion.Syntax.Node

/-!
# A compilation unit: its bytes and its tree

* `text n`   the bytes that a node covers, decoded; ranges beyond the end are cut off;
* `line n`   one more than the line breaks before the node; `column n` counts bytes from the last of them;
* `firstBroken?`   the first part in document order that could not be read;
* `check`    refuses a defective tree, naming that part.
-/

namespace StaticPromotion

/-- what a parser makes of a text: the tree, and whether the parser calls it defective; if it does not say, a tree is
defective that has a broken part -/
structure ParseTree where
  root : Node
  flag : Option Bool := none

def ParseTree.hasErrors (p : ParseTree) : Bool :=
  p.flag.getD (p.root.preorder.any Node.isBroken)

structure SourceUnit where
  bytes : Array UInt8
  root : Node
  hasErrors : Bool

namespace SourceUnit

def ofText (code : String) (tree : ParseTree) : SourceUnit where
  bytes := (Utf8.encode code).toArray
  root := tree.root
  hasErrors := tree.hasErrors

/-! ## text and places -/

def slice (u : SourceUnit) (start stop : Nat) : List UInt8 :=
  (u.bytes.extract start stop).toList

def text (u : SourceUnit) (n : Node) : Except Fault String :=
  (Utf8.decode (u.slice n.start n.stop)).mapError .undecodable

/-- the text of a node that may be absent -/
def optionalText (u : SourceUnit) : Option Node → Except Fault String
  | none => .ok ""
  | some n => u.text n

def lineBreak : UInt8 := 10

def line (u : SourceUnit) (n : Node) : Nat :=
  (u.slice 0 n.start).count lineBreak + 1

def column (u : SourceUnit) (n : Node) : Nat :=
  ((u.slice 0 n.start).reverse.takeWhile (· != lineBreak)).length + 1

/-! ## defects -/

def firstBroken? (u : SourceUnit) : Option Node :=
  u.root.walk.find? Node.isBroken

/-- how many characters of a broken part its message quotes -/
def snippetLength : Nat := 20

def check (u : SourceUnit) (allowErrors : Bool := false) : Except Fault SourceUnit := do
  if u.hasErrors && !allowErrors then
    match u.firstBroken? with
    | none => throw (.syntaxError .unlocated)
    | some n =>
      let snippet := String.ofList ((← u.text n).toList.take snippetLength)
      throw (.syntaxError (.near snippet (u.line n) (u.column n)))
  else return u

end SourceUnit

end StaticPromotion
