import StaticPromotion.Text.Blank

/-!
# Paths

A path is a root, which is empty for a relative path, and the names after it. Repeated separators and single dots mean
nothing and are dropped when a path is read; double dots are kept. Two leading separators are a root of their own.

* `Path.ofText`, `Path.toText`   reading and writing; the path without any part is written as a dot;
* `Path.join`          a path below another; an absolute path stands for itself;
* `Path.relativeTo?`   the rest of a path below another;
* `Path.withSuffix`    the last name with another ending: what stands from its last inner dot on is replaced;
* `Path.before`        the order of directory listings: name by name, by code point.
-/

namespace StaticPromotion

structure Path where
  root : String := ""
  names : List String := []
deriving DecidableEq, Repr, Inhabited

namespace Path

def separator : Char := '/'

/-- the pieces between separators -/
def pieces : List Char → List (List Char)
  | [] => [[]]
  | c :: rest =>
    if c = separator then [] :: pieces rest
    else
      match pieces rest with
      | [] => [[c]]
      | piece :: others => (c :: piece) :: others

def rootOf (leading : Nat) : String :=
  if leading = 0 then "" else if leading = 2 then "//" else "/"

def ofText (text : String) : Path where
  root := rootOf (text.toList.takeWhile (· == separator)).length
  names := ((pieces text.toList).map String.ofList).filter fun name => name != "" && name != "."

def isAbsolute (p : Path) : Bool :=
  p.root != ""

def toText (p : Path) : String :=
  if p.root == "" && p.names.isEmpty then "." else p.root ++ "/".intercalate p.names

/-- the root, if there is one, and the names -/
def parts (p : Path) : List String :=
  if p.isAbsolute then p.root :: p.names else p.names

def child (p : Path) (name : String) : Path :=
  { p with names := p.names ++ [name] }

def join (p q : Path) : Path :=
  if q.isAbsolute then q else { p with names := p.names ++ q.names }

def parent (p : Path) : Path :=
  { p with names := p.names.dropLast }

/-- the last name; empty for a path without names -/
def name (p : Path) : String :=
  p.names.getLastD ""

def relativeTo? (p base : Path) : Option Path :=
  if p.root == base.root && base.names.isPrefixOf p.names then
    some { names := p.names.drop base.names.length }
  else none

/-- a name without its ending -/
def stem (cs : List Char) : List Char :=
  let ending := (cs.reverse.takeWhile (· != '.')).length
  if ending = 0 || cs.length ≤ ending + 1 then cs else cs.take (cs.length - ending - 1)

def withSuffix (p : Path) (suffix : String) : Path :=
  { p with names := p.names.dropLast ++ [String.ofList (stem p.name.toList) ++ suffix] }

def listBefore : List String → List String → Bool
  | [], _ => true
  | _ :: _, [] => false
  | a :: as, b :: bs => if a = b then listBefore as bs else a < b

def before (p q : Path) : Bool :=
  listBefore p.parts q.parts

end Path

end StaticPromotion
