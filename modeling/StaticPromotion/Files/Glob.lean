import StaticPromotion.Files.Path

/-!
# Patterns for names and paths

In a pattern for a name, `*` stands for any text, `?` for any character, and a bracketed set for one of its characters; a set
that starts with `!` stands for one of the others. A bracket that is never closed is a plain character, and a closing bracket
right at the start of a set belongs to it.

* `Mark`, `Mark.read`   a pattern as a list of marks;
* `CharSet.read`   the content of a set. A hyphen between two characters makes a range; one at either end, or right after a
                   range, is plain. A range that runs backwards is empty and takes its ends with it;
* `Mark.fits`      whether a name fits a pattern;
* `Path.fits?`     whether a path fits a pattern for paths: names are compared from the last one backwards, and an absolute
                   pattern must cover the whole path. A pattern without any part is refused.
-/

namespace StaticPromotion

/-! ## sets of characters -/

structure CharSet where
  negated : Bool
  single : List Char
  ranges : List (Char × Char)
deriving DecidableEq, Repr

namespace CharSet

def holds (s : CharSet) (c : Char) : Bool :=
  (s.single.contains c || s.ranges.any fun r => r.1 ≤ c && c ≤ r.2) != s.negated

/-- cuts the content at the hyphens that make ranges; `kept` is the current chunk, last character first, and the first
`closed` characters of what follows cannot be such a hyphen -/
def chunksFrom (kept : List Char) (closed : Nat) : List Char → List (List Char)
  | [] => [kept.reverse]
  | c :: rest =>
    match closed with
    | 0 => if c = '-' then kept.reverse :: chunksFrom [] 2 rest else chunksFrom (c :: kept) 0 rest
    | closed + 1 => chunksFrom (c :: kept) closed rest

/-- a hyphen at the end makes no range -/
def closeLast : List (List Char) → List (List Char)
  | [] => []
  | [chunk] => [chunk]
  | [chunk, []] => [chunk ++ ['-']]
  | chunk :: rest => chunk :: closeLast rest

def chunks (content : List Char) : List (List Char) :=
  let closed := if content.head? = some '!' then 2 else 1
  closeLast (chunksFrom [] closed content)

/-- joins a chunk with those after it where the range between them would run backwards -/
def dropEmptyRange (chunk : List Char) : List (List Char) → List (List Char)
  | [] => [chunk]
  | next :: rest =>
    match chunk.getLast?, next with
    | some low, high :: others =>
      if high < low then (chunk.dropLast ++ others) :: rest else chunk :: next :: rest
    | _, _ => chunk :: next :: rest

def forwardChunks (content : List Char) : List (List Char) :=
  (chunks content).foldr dropEmptyRange []

/-- the ranges between neighbouring chunks -/
def rangesOf : List (List Char) → List (Char × Char)
  | chunk :: next :: rest =>
    match chunk.getLast?, next.head? with
    | some low, some high => (low, high) :: rangesOf (next :: rest)
    | _, _ => rangesOf (next :: rest)
  | _ => []

def read (content : List Char) : CharSet :=
  let parts := forwardChunks content
  match parts with
  | ('!' :: first) :: rest => ⟨true, first ++ rest.flatten, rangesOf (first :: rest)⟩
  | _ => ⟨false, parts.flatten, rangesOf parts⟩

end CharSet

/-! ## marks -/

inductive Mark where
  | any
  | one
  | set (s : CharSet)
  | plain (c : Char)
deriving DecidableEq, Repr

namespace Mark

/-- the content of a set after its opening bracket, and what follows it; none if it is never closed -/
def setContent? (cs : List Char) : Option (List Char × List Char) :=
  let sign := if cs.head? = some '!' then 1 else 0
  let free := if (cs.drop sign).head? = some ']' then sign + 1 else sign
  let inside := cs.take free ++ (cs.drop free).takeWhile (· != ']')
  match cs.drop inside.length with
  | [] => none
  | _ :: rest => some (inside, rest)

theorem length_setContent?_lt {cs inside rest : List Char}
    (h : setContent? cs = some (inside, rest)) : rest.length < cs.length := by
  unfold setContent? at h
  dsimp only at h
  split at h
  · cases h
  · rename_i head tail hd
    have hl := congrArg List.length hd
    rw [List.length_drop, List.length_cons] at hl
    cases h
    omega

def read (pattern : List Char) : List Mark :=
  match pattern with
  | [] => []
  | c :: rest =>
    if c = '*' then .any :: read rest
    else if c = '?' then .one :: read rest
    else if c = '[' then
      match _h : setContent? rest with
      | some (inside, after) => .set (CharSet.read inside) :: read after
      | none => .plain c :: read rest
    else .plain c :: read rest
termination_by pattern.length
decreasing_by
  all_goals simp only [List.length_cons]
  all_goals first
    | omega
    | exact Nat.lt_succ_of_lt (length_setContent?_lt _h)

def accepts : Mark → Char → Bool
  | .any, _ => true
  | .one, _ => true
  | .set s, c => s.holds c
  | .plain p, c => p == c

/-- a list and all it leaves when characters are taken off its front -/
def suffixes : List Char → List (List Char)
  | [] => [[]]
  | c :: rest => (c :: rest) :: suffixes rest

def fits : List Mark → List Char → Bool
  | [], cs => cs.isEmpty
  | .any :: marks, cs => (suffixes cs).any (fits marks)
  | mark :: marks, c :: cs => mark.accepts c && fits marks cs
  | _ :: _, [] => false

end Mark

def fitsName (pattern name : String) : Bool :=
  Mark.fits (Mark.read pattern.toList) name.toList

/-! ## paths -/

/-- refuses a pattern without any part -/
def Path.fits? (p : Path) (pattern : String) : Option Bool :=
  let q := Path.ofText pattern
  if q.parts.isEmpty then none
  else if q.isAbsolute then
    some (q.root == p.root && q.names.length == p.names.length &&
      (List.zipWith fitsName q.names p.names).all id)
  else
    some (q.names.length ≤ p.parts.length &&
      (List.zipWith fitsName q.names.reverse p.parts.reverse).all id)

end StaticPromotion
