import StaticPromotion.Syntax.SourceUnit
import StaticPromotion.Text.Blank

/-!
# Stored syntax trees

A stored tree has a line for each node, in document order: its depth, its kind, its marks (1 for a named node, 2 for a missing
one, 3 for both), where it starts and stops, and its field if it has one. The root has depth 0.

* `Node.graft`         puts a node at a depth below the last node of the depth before;
* `ParseTree.stored?`  reads a stored tree;
* `ParseTree.unread`   stands for a text without one: a defective tree.
-/

namespace StaticPromotion

namespace Node

/-- the node with another one `depth + 1` levels below it, at the end -/
def graft : Nat → Node → Node → Node
  | 0, n, below => { n with children := n.children ++ [below] }
  | depth + 1, n, below =>
    match n.children.getLast? with
    | none => n.graft 0 below
    | some last => { n with children := n.children.dropLast ++ [last.graft depth below] }

/-- a node and its depth -/
def ofLine? (line : List String) : Option (Nat × Node) := do
  match line with
  | depth :: kind :: marks :: start :: stop :: field =>
    let marks ← marks.toNat?
    let node : Node := {
      kind, named := marks % 2 == 1, missing := marks / 2 == 1
      start := ← start.toNat?, stop := ← stop.toNat?, field := field.head? }
    return (← depth.toNat?, node)
  | _ => none

def ofLines? : List (Nat × Node) → Option Node
  | (0, root) :: rest =>
    some (rest.foldl (fun tree entry => tree.graft (entry.1 - 1) entry.2) root)
  | _ => none

end Node

/-- the words of a line -/
def wordsOf (line : String) : List String :=
  (line.splitOn " ").filter (· != "")

def ParseTree.stored? (text : String) : Option ParseTree := do
  let lines := ((text.splitOn "\n").map wordsOf).filter fun words => !words.isEmpty
  return { root := ← Node.ofLines? (← lines.mapM Node.ofLine?) }

def ParseTree.unread : ParseTree :=
  { root := { kind := "program", start := 0, stop := 0 }, flag := some true }

end StaticPromotion
