import StaticPromotion.Files.Glob
import StaticPromotion.Text.Quoted
import StaticPromotion.Text.Utf8

/-!
# A tree of files

The files and directories that a command sees, by their absolute names, with a working directory. There are no links.

* `FileTree.lookup`     what stands at a path; on the way every name must be a directory;
* `FileChange`          a change of the tree, which may fail half-way; what was made before stays;
* `FileError`           why a change fails;
* `FileTree.makeDirs`   makes a directory and those around it, unless they are there;
* `FileTree.write`      makes or replaces a file;
* `FileTree.textOf`     the text of a file, with every line end made a line feed;
* `FileTree.selectBelow`   the paths below a directory that a pattern selects, in the order of their names.
-/

namespace StaticPromotion

/-! ## errors -/

inductive FileError where
  | missing (path : Path)
  | alreadyExists (path : Path)
  | notDirectory (path : Path)
  | isDirectory (path : Path)
deriving DecidableEq, Repr

def FileError.message : FileError → String
  | .missing p => s!"[Errno 2] No such file or directory: {Text.quoted p.toText}"
  | .alreadyExists p => s!"[Errno 17] File exists: {Text.quoted p.toText}"
  | .notDirectory p => s!"[Errno 20] Not a directory: {Text.quoted p.toText}"
  | .isDirectory p => s!"[Errno 21] Is a directory: {Text.quoted p.toText}"

/-! ## the tree -/

/-- the names from the top of the tree -/
abbrev Location := List String

structure FileTree where
  cwd : Location := []
  dirs : List Location := []
  files : List (Location × List UInt8) := []

inductive Lookup where
  | file (place : Location) (bytes : List UInt8)
  | directory (place : Location)
  /-- nothing, in a directory that is there -/
  | absent (place : Location)
  /-- a directory on the way is not there -/
  | noWay
  /-- a name on the way is a file -/
  | blocked

/-- a change of the tree; an error keeps what was changed before it -/
abbrev FileChange := EStateM FileError FileTree Unit

namespace FileTree

def isDirAt (t : FileTree) (place : Location) : Bool :=
  place.isEmpty || t.dirs.contains place

def fileAt? (t : FileTree) (place : Location) : Option (List UInt8) :=
  t.files.lookup place

/-- follows names from a directory -/
def follow (t : FileTree) (dir : Location) : List String → Lookup
  | [] => .directory dir
  | name :: rest =>
    if name = ".." then t.follow dir.dropLast rest
    else if t.isDirAt (dir ++ [name]) then t.follow (dir ++ [name]) rest
    else
      match t.fileAt? (dir ++ [name]), rest with
      | some bytes, [] => .file (dir ++ [name]) bytes
      | some _, _ :: _ => .blocked
      | none, [] => .absent (dir ++ [name])
      | none, _ :: _ => .noWay

def lookup (t : FileTree) (p : Path) : Lookup :=
  t.follow (if p.isAbsolute then [] else t.cwd) p.names

def isFile (t : FileTree) (p : Path) : Bool :=
  match t.lookup p with
  | .file _ _ => true
  | _ => false

def isDir (t : FileTree) (p : Path) : Bool :=
  match t.lookup p with
  | .directory _ => true
  | _ => false

def exists? (t : FileTree) (p : Path) : Bool :=
  t.isFile p || t.isDir p

/-- the absolute path without double dots, whether or not anything stands there -/
def resolve (t : FileTree) (p : Path) : Path :=
  let start := if p.isAbsolute then [] else t.cwd
  { root := "/"
    names := p.names.foldl (fun place name => if name = ".." then place.dropLast else place ++ [name]) start }

/-! ## changes -/

def addDir (t : FileTree) (place : Location) : FileTree :=
  { t with dirs := t.dirs ++ [place] }

def putFile (t : FileTree) (place : Location) (bytes : List UInt8) : FileTree :=
  if (t.fileAt? place).isSome then
    { t with files := t.files.map fun f => if f.1 = place then (place, bytes) else f }
  else { t with files := t.files ++ [(place, bytes)] }

/-- makes one directory; one that is there is enough -/
def makeDir (p : Path) : FileChange := do
  match (← get).lookup p with
  | .directory _ => return
  | .file _ _ => throw (.alreadyExists p)
  | .absent place => modify (·.addDir place)
  | .blocked => throw (.notDirectory p)
  | .noWay => throw (.missing p)

/-- `depth` bounds how many directories around it may be missing -/
def makeDirsWithin : Nat → Path → FileChange
  | 0, p => makeDir p
  | depth + 1, p => do
    match (← get).lookup p with
    | .noWay =>
      makeDirsWithin depth p.parent
      makeDir p
    | _ => makeDir p

def makeDirs (p : Path) : FileChange :=
  makeDirsWithin p.names.length p

def write (p : Path) (bytes : List UInt8) : FileChange := do
  match (← get).lookup p with
  | .file place _ | .absent place => modify (·.putFile place bytes)
  | .directory _ => throw (.isDirectory p)
  | .blocked => throw (.notDirectory p)
  | .noWay => throw (.missing p)

/-- writes a file in a directory that is made if needed -/
def writeBelow (p : Path) (bytes : List UInt8) : FileChange := do
  makeDirs p.parent
  write p bytes

/-! ## text -/

def unifyLineEnds : List Char → List Char
  | '\r' :: '\n' :: rest => '\n' :: unifyLineEnds rest
  | '\r' :: rest => '\n' :: unifyLineEnds rest
  | c :: rest => c :: unifyLineEnds rest
  | [] => []

def textOf (bytes : List UInt8) : Except Utf8.Fault String :=
  (Utf8.decodeChars bytes).map fun cs => String.ofList (unifyLineEnds cs)

/-! ## selection -/

/-- the names in a directory -/
def entries (t : FileTree) (place : Location) : List String :=
  let inside (l : Location) : Option String :=
    if l ≠ [] ∧ l.dropLast = place then l.getLast? else none
  t.dirs.filterMap inside ++ (t.files.map (·.1)).filterMap inside

/-- a directory and all directories below it, as paths below `p` -/
def dirsBelow (t : FileTree) (p : Path) : List Path :=
  match t.lookup p with
  | .directory place =>
    p :: t.dirs.filterMap fun d =>
      if place.isPrefixOf d && d.length != place.length then
        some { p with names := p.names ++ d.drop place.length }
      else none
  | _ => []

inductive PatternPart where
  /-- any directory below -/
  | below
  | exact (name : String)
  | marks (pattern : String)
  /-- the end of a pattern that asks for directories -/
  | directoryOnly
deriving DecidableEq, Repr

inductive PatternError where
  | absolute
  /-- a double star beside other characters -/
  | doubleStar
deriving DecidableEq, Repr

def hasDoubleStar : List Char → Bool
  | '*' :: '*' :: _ => true
  | _ :: rest => hasDoubleStar rest
  | [] => false

def PatternPart.read (name : String) : Except PatternError PatternPart :=
  if name = "**" then .ok .below
  else if hasDoubleStar name.toList then .error .doubleStar
  else if name.toList.any fun c => c == '*' || c == '?' || c == '[' then .ok (.marks name)
  else .ok (.exact name)

def readPattern (pattern : String) : Except PatternError (List PatternPart) := do
  let p := Path.ofText pattern
  if p.isAbsolute then throw .absolute
  let parts ← p.names.mapM PatternPart.read
  return if pattern.toList.getLast? = some Path.separator then parts ++ [.directoryOnly] else parts

def select (t : FileTree) : List PatternPart → Path → List Path
  | [], p => [p]
  | .directoryOnly :: _, p => [p]
  | .exact name :: rest, p =>
    let found := p.child name
    if (if rest.isEmpty then t.exists? found else t.isDir found) then t.select rest found else []
  | .marks pattern :: rest, p =>
    match t.lookup p with
    | .directory place =>
      ((t.entries place).filter fun name =>
        (rest.isEmpty || t.isDirAt (place ++ [name])) && fitsName pattern name).flatMap fun name =>
          t.select rest (p.child name)
    | _ => []
  | .below :: rest, p => ((t.dirsBelow p).flatMap (t.select rest)).eraseDups

/-- every path that the pattern selects from the directory or one below it -/
def selectBelow (t : FileTree) (p : Path) (pattern : String) : Except PatternError (List Path) := do
  let parts ← readPattern pattern
  return (t.select (.below :: parts) p).mergeSort Path.before

end FileTree

end StaticPromotion
