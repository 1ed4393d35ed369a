import StaticPromotion.Text.Blank

/-!
# Names of types as written

A type in source text carries annotations, type arguments, array dimensions and blanks. What is left without
them is a dotted name.

* `clean text`      the dotted name, built by the five steps below in this order;
* `segments name`   the parts between the dots, at least one;
* `simple name`     the last of them.

The steps: `dropAnnotations` takes out each `@` that a name follows, with the name and a closed argument list
right after it; `outside` keeps the characters at bracket depth zero, where a `>` too many makes the depth
negative; `dropPairs` and `dropDots` take out `[]` and `...` from left to right, once each; then all spaces go,
and the blanks at the ends.
-/

namespace StaticPromotion.TypeName

open Text

/-! ## annotations -/

def isAnnotationChar (c : Char) : Bool :=
  c == '.' || isWordChar c

/-- without an argument list at the front, if it is closed -/
def dropArguments : List Char → List Char
  | '(' :: rest =>
    match rest.dropWhile (· != ')') with
    | [] => '(' :: rest
    | _ :: after => after
  | cs => cs

theorem length_dropArguments_le (cs : List Char) : (dropArguments cs).length ≤ cs.length := by
  unfold dropArguments
  split
  · rename_i rest
    split
    · exact Nat.le_refl _
    · rename_i head after h
      have := (List.dropWhile_suffix (· != ')') : rest.dropWhile (· != ')') <:+ rest).length_le
      rw [h] at this
      simp only [List.length_cons] at this ⊢
      omega
  · exact Nat.le_refl _

def dropAnnotations (cs : List Char) : List Char :=
  match cs with
  | [] => []
  | c :: rest =>
    if c = '@' ∧ rest.head?.any isAnnotationChar then
      dropAnnotations (dropArguments (rest.dropWhile isAnnotationChar))
    else c :: dropAnnotations rest
termination_by cs.length
decreasing_by
  · have h₁ := length_dropArguments_le (rest.dropWhile isAnnotationChar)
    have h₂ := (List.dropWhile_suffix isAnnotationChar : rest.dropWhile isAnnotationChar <:+ rest).length_le
    simp only [List.length_cons]
    omega
  · simp

/-! ## type arguments and dimensions -/

/-- the characters at depth zero; the brackets themselves go -/
def outside (depth : Int) : List Char → List Char
  | [] => []
  | '<' :: rest => outside (depth + 1) rest
  | '>' :: rest => outside (depth - 1) rest
  | c :: rest => if depth = 0 then c :: outside depth rest else outside depth rest

def dropPairs : List Char → List Char
  | '[' :: ']' :: rest => dropPairs rest
  | c :: rest => c :: dropPairs rest
  | [] => []

def dropDots : List Char → List Char
  | '.' :: '.' :: '.' :: rest => dropDots rest
  | c :: rest => c :: dropDots rest
  | [] => []

/-! ## the dotted name -/

def cleanChars (cs : List Char) : List Char :=
  strip ((dropDots (dropPairs (outside 0 (dropAnnotations cs)))).filter (· != ' '))

def clean (text : String) : String :=
  String.ofList (cleanChars text.toList)

/-- the pieces between dots -/
def splitDots : List Char → List (List Char)
  | [] => [[]]
  | c :: rest =>
    if c = '.' then [] :: splitDots rest
    else
      match splitDots rest with
      | [] => [[c]]
      | piece :: pieces => (c :: piece) :: pieces

def segments (name : String) : List String :=
  (splitDots name.toList).map String.ofList

def simple (name : String) : String :=
  String.ofList (name.toList.reverse.takeWhile (· != '.')).reverse

end StaticPromotion.TypeName
