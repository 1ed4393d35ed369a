import StaticPromotion.Command
import StaticPromotion.Settings.Section
import StaticPromotion.Syntax.Stored

/-!
# The command line

The files below the working directory and below the directories among the words are read, the command is carried out on them,
and what it changed is written. The syntax tree of a file is stored beside it, under the file's name with `.tree` after it.
-/

namespace StaticPromotion.CommandLine

def placeOf (path : String) : Location :=
  (Path.ofText path).names

def pathAt (place : Location) : String :=
  "/" ++ "/".intercalate place

/-- the directory itself and those around it -/
def addPlaces (t : FileTree) (place : Location) : FileTree :=
  ((List.range place.length).map fun n => place.take (n + 1)).foldl
    (fun t dir => if t.isDirAt dir then t else t.addDir dir) t

/-! ## reading the disk -/

def loadFile (t : FileTree) (place : Location) : IO FileTree := do
  match ← (IO.FS.readBinFile (pathAt place)).toBaseIO with
  | .ok bytes => return t.putFile place bytes.toList
  | .error _ => return t

/-- reads what stands below a directory, down to a depth -/
def loadBelow : Nat → FileTree → Location → IO FileTree
  | 0, t, _ => return t
  | depth + 1, t, place => do
    let mut t := addPlaces t place
    match ← (IO.FS.realPath (pathAt place)).toBaseIO with
    | .error _ => return t
    | .ok directory =>
      for entry in ← directory.readDir do
        let below := place ++ [entry.fileName]
        t ← if ← entry.path.isDir then loadBelow depth t below else loadFile t below
      return t

def deepest : Nat := 64

/-- the places that the words name: a directory with all below it, or a file with those beside it -/
def namedPlaces (words : List String) : IO (List (Nat × Location)) :=
  words.filterMapM fun (word : String) => do
    match ← (IO.FS.realPath word).toBaseIO with
    | .error _ => return none
    | .ok p =>
      let place := placeOf p.toString
      if ← p.isDir then return some (deepest, place) else return some (1, place.dropLast)

def loadFiles (words : List String) : IO FileTree := do
  let cwd := placeOf (← IO.currentDir).toString
  let mut t : FileTree := { cwd }
  for (depth, place) in (deepest, cwd) :: (← namedPlaces words) do
    unless t.dirs.contains place do
      t ← loadBelow depth t place
    for above in ancestry place do
      t ← loadFile t (above ++ [projectFileName])
  return t

/-! ## the tools -/

def readSection (text : String) : Option SettingValue := do
  let table ← Section.read? ("[tool." ++ toolName ++ "]") (String.ofList (FileTree.unifyLineEnds text.toList))
  return .table [("tool", .table [(toolName, table)])]

/-- the stored trees, by the texts that they belong to; a tree that ends elsewhere than its text is of an older one -/
def storedTrees (t : FileTree) : List (String × ParseTree) :=
  t.files.filterMap fun (place, bytes) => do
    let code ← (FileTree.textOf bytes).toOption
    let stored ← t.fileAt? (place.dropLast ++ [place.getLastD "" ++ ".tree"])
    let tree ← ParseTree.stored? (← (FileTree.textOf stored).toOption)
    if tree.root.stop = code.utf8ByteSize then some (code, tree) else none

def toolsFor (t : FileTree) : Tools :=
  let trees := storedTrees t
  { parse := fun code => (trees.lookup code).getD .unread
    readTable := readSection }

/-! ## showing and writing -/

def printShown : Shown → IO Unit
  | .log line => IO.println s!"{line.level.label} {line.message}"
  | .text s => IO.println s
  | .table t => do
    IO.println t.title
    for row in t.columns :: t.rows do
      IO.println (" | ".intercalate row)

def saveFiles (before after : FileTree) : IO Unit := do
  for dir in after.dirs do
    unless before.isDirAt dir do
      IO.FS.createDirAll (pathAt dir)
  for (place, bytes) in after.files do
    unless before.fileAt? place == some bytes do
      IO.FS.writeBinFile (pathAt place) ⟨bytes.toArray⟩

def usage : String :=
  "usage: staticizer [-h] [--version] [-v] run PATH [--out PATH] [--check] [--strict]\n" ++
    "         [--exclude [PATTERN ...]] [--json-report PATH] [--json-trace PATH]\n" ++
    "       staticizer [-h] [--version] [-v] explain PATH"

def printNoRequest : NoRequest → IO Unit
  | .help => IO.println usage
  | .version => IO.println "staticizer 0.1.0"
  | .misused e => do
    IO.eprintln usage
    IO.eprintln e.message

/-- the exit code when a command meets a fault that it does not deal with -/
def faultCode : Nat := 1

def perform (words : List String) : IO Nat := do
  match Request.read words with
  | .error reason =>
    printNoRequest reason
    return reason.exitCode
  | .ok _ =>
    let files ← loadFiles words
    let (code, after) :=
      match Command.execute (toolsFor files) words { files } with
      | .ok code after => (Except.ok code, after)
      | .error fault after => (Except.error fault, after)
    saveFiles files after.files
    after.shown.forM printShown
    match code with
    | .ok code => return code
    | .error fault =>
      IO.eprintln fault.message
      return faultCode

end StaticPromotion.CommandLine

def main (words : List String) : IO UInt32 := do
  return (← StaticPromotion.CommandLine.perform words).toUInt32
