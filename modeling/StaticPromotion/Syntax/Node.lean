/-!
# Nodes of a concrete syntax tree

A node has a kind, a range of bytes, perhaps a field name under its parent, and children. Kinds are open text:
a tree may hold any. `named` tells grammar symbols from punctuation and keywords, `missing` marks a node that the
parser made up.

* `namedChildren`, `child? f`, `childrenAt f`   the three ways to reach children: by being named, the first one in a field, all
                 of a field;
* `namedBut f`   the named children other than the one that `child? f` finds;
* `preorder`     the node and all below it in document order; `height` the length of the longest way down;
* `walk`         the same nodes, met one by one with a stack in place of recursion;
* `key`          range and kind, by which declarations are found again.
-/

namespace StaticPromotion

structure Node where
  kind : String
  named : Bool := true
  missing : Bool := false
  start : Nat
  stop : Nat
  field : Option String := none
  children : List Node := []
deriving Inhabited

namespace Node

/-! ## children -/

def namedChildren (n : Node) : List Node :=
  n.children.filter (·.named)

def inField (f : String) (n : Node) : Bool :=
  n.field == some f

def child? (n : Node) (f : String) : Option Node :=
  n.children.find? (inField f)

def childrenAt (n : Node) (f : String) : List Node :=
  n.children.filter (inField f)

def namedBut (n : Node) (f : String) : List Node :=
  (n.children.eraseP (inField f)).filter (·.named)

/-- the kind of the first child in a field, empty if there is none -/
def childKind (n : Node) (f : String) : String :=
  ((n.child? f).map (·.kind)).getD ""

theorem mem_of_child? {n c : Node} {f : String} (h : n.child? f = some c) : c ∈ n.children :=
  List.mem_of_find?_eq_some h

theorem mem_of_mem_namedChildren {n c : Node} (h : c ∈ n.namedChildren) : c ∈ n.children :=
  (List.mem_filter.mp h).1

theorem named_of_mem_namedChildren {n c : Node} (h : c ∈ n.namedChildren) : c.named = true :=
  (List.mem_filter.mp h).2

theorem mem_of_mem_childrenAt {n c : Node} {f : String} (h : c ∈ n.childrenAt f) :
    c ∈ n.children :=
  (List.mem_filter.mp h).1

theorem mem_of_mem_namedBut {n c : Node} {f : String} (h : c ∈ n.namedBut f) :
    c ∈ n.children :=
  List.mem_of_mem_eraseP (List.mem_filter.mp h).1

/-! ## identity and defects -/

abbrev Key := Nat × Nat × String

def key (n : Node) : Key :=
  (n.start, n.stop, n.kind)

/-- a part that the parser could not read, or that it made up -/
def isBroken (n : Node) : Bool :=
  n.kind == "ERROR" || n.missing

def isComment (n : Node) : Bool :=
  n.kind == "line_comment" || n.kind == "block_comment"

/-! ## the whole tree -/

mutual

def preorder : Node → List Node
  | n@⟨_, _, _, _, _, _, children⟩ => n :: preorderAll children

def preorderAll : List Node → List Node
  | [] => []
  | c :: rest => preorder c ++ preorderAll rest

end

mutual

def height : Node → Nat
  | ⟨_, _, _, _, _, _, children⟩ => heightAll children + 1

def heightAll : List Node → Nat
  | [] => 0
  | c :: rest => max (height c) (heightAll rest)

end

theorem preorderAll_eq_flatMap (cs : List Node) : preorderAll cs = cs.flatMap preorder := by
  induction cs with
  | nil => rfl
  | cons c rest ih => rw [preorderAll, ih, List.flatMap_cons]

theorem preorder_eq (n : Node) : n.preorder = n :: n.children.flatMap preorder := by
  cases n
  rw [← preorderAll_eq_flatMap, preorder]

theorem height_le_heightAll {c : Node} {cs : List Node} (h : c ∈ cs) :
    c.height ≤ heightAll cs := by
  induction cs with
  | nil => cases h
  | cons d rest ih =>
    rw [heightAll]
    rcases List.mem_cons.mp h with rfl | h
    · exact Nat.le_max_left _ _
    · exact Nat.le_trans (ih h) (Nat.le_max_right _ _)

theorem height_lt_of_mem_children {n c : Node} (h : c ∈ n.children) : c.height < n.height := by
  rw [show n.height = heightAll n.children + 1 by cases n; rw [height]]
  exact Nat.lt_succ_of_le (height_le_heightAll h)

theorem induction {P : Node → Prop} (node : ∀ n, (∀ c ∈ n.children, P c) → P n) (n : Node) : P n := by
  induction hheight : n.height using Nat.strongRecOn generalizing n with
  | ind height ih => exact node n fun c hc => ih _ (hheight ▸ height_lt_of_mem_children hc) c rfl

/-! ## the walk -/

theorem toList_of_back? {stack : Array Node} {top : Node} (h : stack.back? = some top) :
    stack.toList = stack.pop.toList ++ [top] := by
  obtain ⟨below, rfl⟩ := Array.back?_eq_some_iff.mp h
  rw [Array.pop_push, Array.toList_push]

/-- The nodes met with a stack whose top is last: the top is taken and met, and its children are put on the stack in reverse,
so that the first of them is the next top. -/
@[semireducible] def walkFrom (stack : Array Node) : List Node :=
  match _h : stack.back? with
  | none => []
  | some top => top :: walkFrom (stack.pop ++ top.children.reverse)
termination_by (stack.toList.flatMap preorder).length
decreasing_by
  have hreversed := ((List.reverse_perm top.children).flatMap_right preorder).length_eq
  rw [toList_of_back? _h, Array.toList_appendList, List.flatMap_append, List.flatMap_append,
    List.length_append, List.length_append, hreversed, List.flatMap_singleton, preorder_eq, List.length_cons]
  omega

def walk (n : Node) : List Node :=
  walkFrom #[n]

end Node

end StaticPromotion
